import GalaxDb.Sql.RowRoundTrip
import GalaxDb.Sql.StoredKeys
import GalaxDb.Sql.Writers

/-!
# Updates of one row

Two clients that overlap may write the same key: an autocommit statement takes no lock, and
a transaction takes the lock of a key without asking who has written it since its snapshot.
Where no client takes such a key, every update of a row starts from the one before it, and
counters count.
-/

namespace GalaxDb.Sql

open Bytes Executor WriteLog Engine List

variable {cfg : Settings} {s : Db}

/-- `SET column = column + 1` -/
def increment (column : Bytes) : List (Bytes × ScalarExpr) :=
  [(column, .binary .add (.column column) (.literal (.integer 1)))]

/-- The column is there, and no cell before it runs into the next or changes when it is
stored. -/
def Legible (column : Bytes) : Columns → Prop
  | [] => False
  | (name, v) :: rest => (61 ∉ name ∧ 124 ∉ name) ∧ (name = column ∨ name ≠ column ∧
      valueFromStr (valueDisplay v) = v ∧ (valueDisplay v).getLast? ≠ some 92 ∧ Legible column rest)

/-- A stored row whose column is the integer `m`. -/
def Counter (column : Bytes) (m : Int) (row : Bytes) : Prop :=
  cell (decodeRow row) column = some (.integer m) ∧ Legible column (decodeRow row)

theorem backslash_not_mem_intDisplay (n : Int) : (92 : UInt8) ∉ intDisplay n := by
  have digits : ∀ n : Nat, (92 : UInt8) ∉ natDigits n :=
    fun n h => absurd (natDigits_digit h) (by decide)
  rw [intDisplay]
  split <;> simp [digits]

variable {c : Client} {column : Bytes} {cols new : Columns} {m : Int}

theorem Legible.reads_back (legible : Legible column cols) {n : Int} (low : i64Min ≤ n)
    (high : n ≤ i64Max) :
    cell (decodeRow (encodeRow (setCell column (.integer n) cols))) column = some (.integer n) ∧
      Legible column (decodeRow (encodeRow (setCell column (.integer n) cols))) := by
  induction cols with
  | nil => exact legible.elim
  | cons c rest ih =>
    obtain ⟨⟨equals, bars⟩, here | ⟨other, same, apart, later⟩⟩ := legible
    · subst here
      rw [setCell, if_pos rfl, decodeRow_encodeRow_cons equals bars]
      · rw [valueDisplay, valueFromStr_intDisplay low high]
        exact ⟨by simp [cell], ⟨equals, bars⟩, Or.inl rfl⟩
      · intro _ ends
        exact backslash_not_mem_intDisplay n (mem_of_getLast? ends)
    · obtain ⟨found, legible⟩ := ih later
      rw [setCell, if_neg other, decodeRow_encodeRow_cons equals bars (fun _ => apart), same]
      refine ⟨?_, ⟨equals, bars⟩, Or.inr ⟨other, same, apart, legible⟩⟩
      simpa [cell, other] using found

theorem updateRow_increment (here : cell cols column = some (.integer m))
    (ok : updateRow (increment column) cols = .ok new) :
    new = setCell column (.integer (m + 1)) cols ∧ i64Min ≤ m + 1 ∧ m + 1 ≤ i64Max := by
  have sum : (ScalarExpr.binary .add (.column column) (.literal (.integer 1))).eval cols =
      Scalar.checked (m + 1) := by
    simp [ScalarExpr.eval, here, Except.bind, Scalar.apply, Scalar.isNull, Scalar.toNum,
      Scalar.intOp]
  simp only [updateRow, increment, newValues, sum, Scalar.checked] at ok
  split at ok
  · rename_i range
    simp only [Except.bind, Except.map, Except.ok.injEq] at ok
    exact ⟨ok.symm, range⟩
  · simp [Except.bind, Except.map] at ok

theorem Counter.incremented {row : Bytes} (counter : Counter column m row)
    (ok : updateRow (increment column) (decodeRow row) = .ok new) :
    Counter column (m + 1) (encodeRow new) := by
  obtain ⟨rfl, low, high⟩ := updateRow_increment counter.1 ok
  exact counter.2.reads_back low high

section Statements

def Request.isWrite : Request → Bool
  | .plan (.fullScan _ _ _) => false
  | .plan (.pointLookup _ _) => false
  | .sorted _ _ _ _ => false
  | _ => true

/-- The statements of a client that may write, with what they have returned. -/
def Client.statements (c : Client) : List (Request × Response) :=
  c.responses.filter fun x => x.1.isWrite

variable {rows : List (Row Bytes Bytes)} {ctx : ExecutorContext} {c : Client} {r : Request}
  {effect : Effect}

variable {writes : List (Bytes × Option Bytes)} {assignments : List (Bytes × ScalarExpr)}
  {filter : Option FilterExpr} {p : QueryPlan} {t : Timestamp} {table : Bytes}

theorem planEffect_of_read (read : (Request.plan p).isWrite = false)
    (ok : planEffect ctx p = .ok effect) : effect.writes = [] := by
  cases p with
  | fullScan table filter columns =>
    obtain ⟨entry, -, rfl⟩ := planFullScan_ok ok
    rfl
  | pointLookup table key =>
    obtain ⟨entry, -, rfl⟩ := planPointLookup_ok ok
    rfl
  | _ => simp [Request.isWrite] at read

theorem requestEffect_plan (ok : requestEffect ctx (.plan p) = .ok effect) :
    planEffect ctx p = .ok effect := by
  cases p with
  | bulkInsert table columns rows => simp [requestEffect] at ok
  | _ => exact ok

theorem requestEffect_of_read (read : r.isWrite = false) (ok : requestEffect ctx r = .ok effect) :
    effect.writes = [] := by
  cases r with
  | sorted table filter columns order => exact (sortedScan_ok ok).1
  | plan p => exact planEffect_of_read read (requestEffect_plan ok)

/-- The writes of an UPDATE that sees the contents at `t`. -/
def UpdateAt (rows : List (Row Bytes Bytes)) (t : Timestamp) (table : Bytes)
    (assignments : List (Bytes × ScalarExpr)) (filter : Option FilterExpr)
    (writes : List (Bytes × Option Bytes)) : Prop :=
  ∃ reader, Shows reader (contentsAt rows t) ∧
    writes = (updateWrites assignments (matching filter (decodeRows (reader.tableRows table)))).1

/-- Every row is computed from the one that was seen. -/
theorem UpdateAt.write (h : UpdateAt rows t table assignments filter writes)
    {w : Bytes × Option Bytes} (written : w ∈ writes) :
    ∃ old new, contentsAt rows t w.1 = some old ∧
      updateRow assignments (decodeRow old) = .ok new ∧ w.2 = some (encodeRow new) := by
  obtain ⟨reader, shows, rfl⟩ := h
  obtain ⟨r, matched, new, evaluated, rfl⟩ := updateWrites_mem _ w written
  obtain ⟨row, there, rfl⟩ := mem_map.mp (mem_filter.mp matched).1
  exact ⟨row.2, new, ((shows.rows table row.1 row.2).mp there).2, evaluated, rfl⟩

theorem UpdateAt.nodup (h : UpdateAt rows t table assignments filter writes) :
    (writes.map Prod.fst).Nodup := by
  obtain ⟨reader, shows, rfl⟩ := h
  apply List.Nodup.sublist _ (nodup_keys_of_ordered (shows.ordered table))
  have decoded : (decodeRows (reader.tableRows table)).map Prod.fst =
      (reader.tableRows table).map Prod.fst := by simp [decodeRows]
  rw [← decoded]
  exact (updateWrites_sublist _ _).trans (filter_sublist.map _)

/-- A client with one writing statement has written what that statement asks for. -/
def Client.OneStatement (rows : List (Row Bytes Bytes)) (c : Client) : Prop :=
  match c.pc with
  | .aborted => True
  | .buffering _ r effect pending => r.isWrite = true ∧ (c.statements = [] →
      effect.writes = c.history ++ pending ∧ ∀ table assignments filter,
        r = .plan (.update table assignments filter) →
          UpdateAt rows c.seenTs table assignments filter effect.writes)
  | _ => (c.statements = [] → c.history = []) ∧ ∀ table assignments filter answer,
      c.statements = [(.plan (.update table assignments filter), .ok answer)] →
        UpdateAt rows c.seenTs table assignments filter c.history

theorem Client.oneStatement_applyRest (clock : Nat) (pending : List (Bytes × Option Bytes))
    (nothing : c.statements = [] → c.history = []) (one : ∀ table assignments filter answer,
      c.statements = [(.plan (.update table assignments filter), .ok answer)] →
        UpdateAt rows c.seenTs table assignments filter c.history) :
    (c.applyRest clock pending).OneStatement rows := by
  simp only [Client.applyRest]
  split <;> exact ⟨nothing, one⟩

/-- A statement is added to those of a client when it is over. -/
theorem Client.oneStatement_bufferRest {t : TxnHandle} {pending : List (Bytes × Option Bytes)}
    (write : r.isWrite = true) (first : c.statements = [] → effect.writes = c.history ++ pending ∧
      ∀ table assignments filter, r = .plan (.update table assignments filter) →
        UpdateAt rows c.seenTs table assignments filter effect.writes) :
    (c.bufferRest t r effect pending).OneStatement rows := by
  simp only [Client.bufferRest]
  split
  · rename_i empty
    have grown : (c.responses ++ [(r, effect.response)]).filter (fun x => x.1.isWrite) =
        c.statements ++ [(r, effect.response)] := by simp [Client.statements, write]
    refine ⟨fun none_ => ?_, fun table assignments filter answer only => ?_⟩
    · simpa using grown.symm.trans none_
    · have both := append_eq_singleton_iff.mp (grown.symm.trans only)
      obtain ⟨none_, same⟩ : c.statements = [] ∧ r = .plan (.update table assignments filter) := by
        rcases both with ⟨none_, last⟩ | ⟨-, last⟩
        · simp only [cons.injEq, Prod.mk.injEq] at last
          exact ⟨none_, last.1.1⟩
        · simp at last
      obtain ⟨writes, update⟩ := first none_
      rw [empty, append_nil] at writes
      rw [← writes]
      exact update table assignments filter same
  · exact ⟨write, first⟩

theorem Client.statements_of_read {answer : Response} (read : r.isWrite = false) :
    (c.responses ++ [(r, answer)]).filter (fun x => x.1.isWrite) = c.statements := by
  simp [Client.statements, read]

theorem Client.oneStatement_fails {t : TxnHandle} {e : SqlError}
    (before : r.isWrite = false → (c.statements = [] → c.history = []) ∧
      ∀ table assignments filter answer,
        c.statements = [(.plan (.update table assignments filter), .ok answer)] →
          UpdateAt rows c.seenTs table assignments filter c.history) :
    (c.fails t r e).OneStatement rows := by
  simp only [Client.OneStatement, Client.fails, Client.statements]
  cases write : r.isWrite with
  | false =>
    rw [Client.statements_of_read write]
    exact before write
  | true =>
    refine ⟨by simp [write], ?_⟩
    intro table assignments filter answer only
    have last : (r, .error e) ∈ [((.plan (.update table assignments filter), .ok answer) :
        Request × Response)] := by
      rw [← only]
      simp [write]
    simp at last

theorem updateAt_of_planned {ctx : ExecutorContext} {rows : List (Row Bytes Bytes)} {t : Timestamp}
    (shows : Shows ctx.reader (contentsAt rows t)) {table : Bytes}
    {assignments : List (Bytes × ScalarExpr)} {filter : Option FilterExpr} {effect : Effect}
    (ok : planUpdate ctx table assignments filter = .ok effect) :
    UpdateAt rows t table assignments filter effect.writes := by
  rw [planUpdate_ok ok]
  exact ⟨ctx.reader, shows, rfl⟩

/-- A client with one writing statement writes what that statement asks for. -/
theorem Move.oneStatement {P : Bytes × Option Bytes → Prop} {a : Act} {i : Nat} {e : Engine}
    {m : TransactionManager} (kept : Kept P s rows) (move : Move cfg s a i e m c)
    (one : ∀ c0, s.clients[i]? = some c0 → c0.OneStatement rows) : c.OneStatement rows := by
  cases move with
  | begin serializable =>
    exact ⟨fun _ => rfl, by simp [Client.statements, Db.newClient]⟩
  | autoFailed failed => trivial
  | autoPlanned planned =>
    rename_i p effect
    have now : contentsAt rows s.engine.latestCommitTs = contents (ofRows rows) :=
      contentsAt_of_le fun x hx => Nat.le_sub_one_of_lt (kept.recorded.past x hx)
    apply Client.oneStatement_applyRest
    · intro none_
      simp only [Client.statements, filter_eq_nil_iff] at none_
      apply planEffect_of_read _ planned
      simpa using none_ _ mem_cons_self
    · intro table assignments filter answer only
      have same : p = .update table assignments filter := by
        simp only [Client.statements, filter_cons] at only
        split at only
        · simpa using congrArg (fun x => x.map Prod.fst) only
        · simp at only
      subst same
      apply @updateAt_of_planned (s.autoContext cfg)
      · rw [show ({ s.newClient .aborted none with
            responses := _
            history := _ } : Client).seenTs = s.engine.latestCommitTs from rfl, now]
        exact shows_latest kept.recorded cfg.order
      · exact planned
  | draw here pc | register here pc =>
    have old := one _ here
    simp only [Client.OneStatement, pc] at old
    exact old
  | execFailed here pc failed =>
    have old := one _ here
    simp only [Client.OneStatement, pc] at old
    exact Client.oneStatement_fails fun _ => old
  | execPlanned here pc planned =>
    rename_i c0 t r effect
    have old := one _ here
    simp only [Client.OneStatement, pc] at old
    cases write : r.isWrite with
    | false =>
      rw [Client.bufferRest, if_pos (requestEffect_of_read write planned)]
      simp only [Client.OneStatement, Client.statements]
      rw [Client.statements_of_read write]
      exact old
    | true =>
      apply Client.oneStatement_bufferRest write
      intro none_
      have empty := old.1 none_
      refine ⟨by simp [empty], ?_⟩
      rintro table assignments filter rfl
      have handle : c0.handle = some t := by simp [Client.handle, pc]
      have view : Sql.buffered (contentsAt rows t.readTs) t.writes = contentsAt rows c0.seenTs := by
        funext k
        have readTs := kept.timed.snapshot i c0 _ here ((kept.fine i c0 here).handle handle)
        rw [Sql.buffered, (kept.traced i c0 here).handle handle, empty, readTs]
        rfl
      apply @updateAt_of_planned (s.txnContext cfg t)
      · rw [← view]
        exact shows_snapshot kept.recorded cfg.order t
      · exact planned
  | refused here pc failed => exact one _ here
  | rolledBack here pc => trivial
  | conflict here pc failed =>
    have old := one _ here
    simp only [Client.OneStatement, pc] at old
    exact Client.oneStatement_fails fun read => absurd read (by simp [old.1])
  | buffered here pc buffered =>
    have old := one _ here
    simp only [Client.OneStatement, pc] at old
    apply Client.oneStatement_bufferRest old.1
    intro none_
    obtain ⟨writes, update⟩ := old.2 none_
    exact ⟨by simp [Client.claim, writes], update⟩
  | certified here pc certified | put here pc put | delete here pc deleted =>
    have old := one _ here
    simp only [Client.OneStatement, pc] at old
    exact Client.oneStatement_applyRest _ _ old.1 old.2

end Statements

/-- What is certified or planned but not applied yet. -/
def Client.unapplied (c : Client) : List (Bytes × Option Bytes) :=
  match c.pc with
  | .applying pending => pending
  | _ => []

/-- A client that asks for each key once writes each key at most once. -/
def Client.Once (c : Client) : Prop :=
  (c.history.map Prod.fst).Nodup → (c.wrote.map Row.key ++ c.unapplied.map Prod.fst).Nodup

theorem Client.once_applyRest {pending : List (Bytes × Option Bytes)} (clock : Nat)
    (nodup : (c.history.map Prod.fst).Nodup →
      (c.wrote.map Row.key ++ pending.map Prod.fst).Nodup) : (c.applyRest clock pending).Once := by
  simp only [Client.applyRest]
  split
  · rename_i empty
    subst empty
    exact nodup
  · exact nodup

theorem Client.once_of_unwritten (unwritten : c.wrote = []) (planned : c.unapplied = []) :
    c.Once := by
  simp [Client.Once, unwritten, planned]

theorem Client.Fine.unwritten (fine : c.Fine) (unsettled : c.settled = false) : c.wrote = [] := by
  by_contra wrote
  simp [fine.settled wrote] at unsettled

theorem Move.once {a : Act} {i : Nat} {e : Engine} {m : TransactionManager}
    (move : Move cfg s a i e m c) (fine : ∀ c0, s.clients[i]? = some c0 → c0.Fine)
    (once : ∀ c0, s.clients[i]? = some c0 → c0.Once) : c.Once := by
  cases move with
  | begin serializable => exact Client.once_of_unwritten rfl rfl
  | autoFailed failed => exact Client.once_of_unwritten rfl rfl
  | autoPlanned planned =>
    exact Client.once_applyRest _ fun nodup => by simpa [Db.newClient] using nodup
  | execPlanned here pc planned =>
    apply Client.once_of_unwritten
    · rw [(Client.bufferRest_frame _ _ _ _ _).1]
      exact (fine _ here).unwritten (by simp [Client.settled, pc])
    · simp only [Client.bufferRest]
      split <;> rfl
  | refused here pc failed => exact once _ here
  | certified here pc certified =>
    apply Client.once_applyRest
    intro _
    rw [(fine _ here).unwritten (by simp [Client.settled, pc])]
    exact nodup_keys_of_ordered Std.ExtTreeMap.ordered_keys_toList
  | draw here pc | register here pc | execFailed here pc failed | rolledBack here pc
  | conflict here pc failed =>
    exact Client.once_of_unwritten ((fine _ here).unwritten (by simp [Client.settled, pc])) rfl
  | buffered here pc buffered =>
    apply Client.once_of_unwritten
    · rw [(Client.bufferRest_frame _ _ _ _ _).1]
      exact (fine _ here).unwritten (by simp [Client.settled, pc])
    · simp only [Client.bufferRest]
      split <;> rfl
  | put here pc put =>
    apply Client.once_applyRest
    intro nodup
    have old := once _ here nodup
    simp only [Client.unapplied, pc] at old
    simpa [Client.record] using old
  | delete here pc deleted =>
    rename_i c0 key rest found
    apply Client.once_applyRest
    intro nodup
    have old := once _ here nodup
    simp only [Client.unapplied, pc] at old
    cases found with
    | true => simpa [Client.record] using old
    | false =>
      apply List.Nodup.sublist _ old
      simp [Client.record]

section Runs

/-- Every write counts. -/
def EveryWrite (_ : Bytes × Option Bytes) : Prop := True

instance : DecidablePred EveryWrite := fun _ => isTrue trivial

/-- `UPDATE table SET column = column + 1`, with any filter. -/
def Request.increments (table column : Bytes) : Request → Bool
  | .plan (.update t [(a, .binary .add (.column b) (.literal (.integer 1)))] _) =>
    t == table && a == column && b == column
  | _ => false

/-- The one statement of the client that may write is an increment, and it succeeded. -/
def Client.Increments (table column : Bytes) (c : Client) : Prop :=
  c.statements.length = 1 ∧ ∀ x ∈ c.statements, x.1.increments table column = true ∧ x.2.isOk = true

instance (table column : Bytes) (c : Client) : Decidable (c.Increments table column) :=
  inferInstanceAs (Decidable (_ ∧ _))

/-- The clients that came at `t` or later, have asked for the key and are through. -/
def Db.updaters (s : Db) (k : Bytes) (t : Timestamp) : List Client :=
  s.clients.filter fun c => c.finishedAt.isSome && decide (k ∈ c.history.map Prod.fst) &&
    decide (t ≤ c.seenTs)

variable {column k : Bytes} {c : Client} {i : Nat}

variable {x : Row Bytes Bytes} {t0 : Timestamp} {table : Bytes} {m : Int}

theorem Client.Increments.update (h : c.Increments table column) : ∃ filter answer,
      c.statements = [(.plan (.update table (increment column) filter), .ok answer)] := by
  obtain ⟨x, only⟩ := length_eq_one_iff.mp h.1
  obtain ⟨update, ok⟩ := h.2 x (by simp [only])
  obtain ⟨r, answer⟩ := x
  simp only [Request.increments] at update
  split at update
  · rename_i t a b filter
    simp only [Bool.and_eq_true, beq_iff_eq] at update
    obtain ⟨⟨rfl, rfl⟩, rfl⟩ := update
    cases answer with
    | error e => simp [Except.isOk, Except.toBool] at ok
    | ok answer => exact ⟨filter, answer, only⟩
  · cases update

variable {rows : List (Row Bytes Bytes)}

/-- Rows of one key by two clients: one client has seen the row of the other. -/
theorem Kept.seen_or_seen (kept : Kept EveryWrite s rows) {j : Nat} {c' : Client} (apart : i ≠ j)
    (here : s.clients[i]? = some c) (here' : s.clients[j]? = some c') {y : Row Bytes Bytes}
    (wrote : x ∈ c.wrote) (wrote' : y ∈ c'.wrote) (key : x.key = y.key) :
    x.ts ≤ c'.seenTs ∨ y.ts ≤ c.seenTs := by
  have claims : ∀ (l : Nat) (d : Client) (z : Row Bytes Bytes), s.clients[l]? = some d →
      z ∈ d.wrote → d.Claims EveryWrite z.key := by
    intro l d z there written
    refine ⟨?_, (z.key, z.val), (kept.traced l d there).1 z written, rfl, trivial⟩
    have settled := (kept.fine l d there).settled (ne_nil_of_mem written)
    simp only [Client.settled] at settled
    simp only [Client.gone]
    cases pc : d.pc <;> simp_all
  rcases kept.separated i j c c' x.key apart here here' (claims i c x here wrote)
    (key ▸ claims j c' y here' wrote') with before | before
  · exact Or.inl (kept.timed.before j i c' c here' here before x wrote)
  · exact Or.inr (kept.timed.before i j c c' here here' before y wrote')

/-- What is known of a client that has incremented a row. -/
structure Incremented (rows : List (Row Bytes Bytes)) (c : Client) (k column : Bytes)
    (x : Row Bytes Bytes) : Prop where
  wrote : x ∈ c.wrote
  key : x.key = k
  only : ∀ y ∈ c.wrote, y.key = k → y = x
  value : ∃ old new, contentsAt rows c.seenTs k = some old ∧
    updateRow (increment column) (decodeRow old) = .ok new ∧ x.val = some (encodeRow new)
  nodup : c.wrote.Nodup

theorem Kept.incremented (kept : Kept EveryWrite s rows) (here : s.clients[i]? = some c)
    (one : c.OneStatement rows) (once : c.Once) (finished : c.finishedAt ≠ none)
    (asked : k ∈ c.history.map Prod.fst) (increments : c.Increments table column) :
    ∃ x, Incremented rows c k column x := by
  have committed := (kept.fine i c here).committed finished
  simp only [Client.OneStatement, committed] at one
  obtain ⟨filter, answer, only⟩ := increments.update
  have update := one.2 table (increment column) filter answer only
  obtain ⟨v, last⟩ := Option.ne_none_iff_exists'.mp (lastWrite_ne_none_iff.mpr asked)
  obtain ⟨old, new, seen, evaluated, value⟩ := update.write (mem_of_lastWrite last)
  subst value
  have traced := (kept.traced i c here).2
  rw [committed] at traced
  obtain ⟨x, wrote, key, stored⟩ := traced k (encodeRow new) last
  have keys : (c.wrote.map Row.key).Nodup := by
    simpa [Client.unapplied, committed] using once update.nodup
  refine ⟨x, wrote, key, ?_, ⟨old, new, seen, evaluated, stored⟩, keys.of_map⟩
  intro y hy same
  exact inj_on_of_nodup_map keys hy wrote (same.trans key.symm)

/-- An increment starts from the row that was there just before its own. -/
theorem Kept.increment_of_last (kept : Kept EveryWrite s rows) (here : s.clients[i]? = some c)
    {pre post : List (Row Bytes Bytes)} (split : rows = pre ++ x :: post)
    (done : Incremented rows c k column x) {v : Bytes} (before : contents (ofRows pre) k = some v)
    (counter : Counter column m v) : ∃ v', x.val = some v' ∧ Counter column (m + 1) v' := by
  obtain ⟨old, new, seen, evaluated, value⟩ := done.value
  have ascending := kept.recorded.ascending
  have after := kept.timed.after i c here x done.wrote
  have quiet : ∀ y ∈ rows, y.key = k → y.ts ≤ x.ts - 1 → y.ts ≤ c.seenTs := by
    intro y hy key older
    have less : y.ts < x.ts :=
      older.trans_lt (Nat.sub_lt (Nat.zero_lt_of_lt after) one_pos)
    obtain ⟨j, d, there', wrote⟩ := (kept.wrote y).mp hy
    by_cases same : i = j
    · subst same
      obtain rfl := Option.some.inj (here.symm.trans there')
      rw [done.only y wrote key] at less
      exact absurd less (lt_irrefl _)
    · rcases kept.seen_or_seen same here there' done.wrote wrote
        (done.key.trans key.symm) with h | h
      · have later := kept.timed.after j d there' y wrote
        exact absurd ((Nat.lt_of_le_of_lt h later).trans less) (lt_irrefl _)
      · exact h
  have cut : Row.visible (x.ts - 1) rows = pre := by
    rw [split] at ascending ⊢
    obtain ⟨-, tail, cross⟩ := pairwise_append.mp ascending
    apply visible_append
    · exact fun y hy => Nat.le_sub_one_of_lt (cross y hy x mem_cons_self)
    · intro y hy
      rcases mem_cons.mp hy with rfl | hy
      · exact Nat.sub_lt (Nat.zero_lt_of_lt after) one_pos
      · exact (Nat.sub_le _ _).trans_lt ((pairwise_cons.mp tail).1 y hy)
  have same : contentsAt rows c.seenTs k = some v := by
    rw [← contentsAt_of_quiet ascending (Nat.le_sub_one_of_lt after) quiet, contentsAt, cut]
    exact before
  obtain rfl := Option.some.inj (seen.symm.trans same)
  exact ⟨encodeRow new, value, counter.incremented evaluated⟩

/-- A counter counts the rows of its key. -/
theorem Kept.counts (kept : Kept EveryWrite s rows) {v0 : Bytes}
    (start : contentsAt rows t0 k = some v0) (counter : Counter column m v0)
    (done : ∀ x ∈ rows, x.key = k → t0 < x.ts → ∃ (i : Nat) (c : Client), s.clients[i]? = some c ∧
      Incremented rows c k column x) (pre : List (Row Bytes Bytes)) :
    ∀ post, rows = pre ++ post → (∀ x ∈ post, t0 < x.ts) → ∃ v, contents (ofRows pre) k = some v ∧
      Counter column (m + (pre.filter fun x => decide (x.key = k) && decide (t0 < x.ts)).length)
        v := by
  have ascending := kept.recorded.ascending
  induction pre using List.reverseRecOn with
  | nil =>
    intro post split later
    have empty : Row.visible t0 rows = [] := by
      rw [split]
      exact visible_append (by simp) later
    simp [contentsAt, empty, ofRows, contents] at start
  | append_singleton pre x ih =>
    intro post split later
    by_cases past : x.ts ≤ t0
    · -- the snapshot ends here
      have all : ∀ y ∈ pre ++ [x], y.ts ≤ t0 := by
        rw [split, append_assoc] at ascending
        obtain ⟨-, -, cross⟩ := pairwise_append.mp ascending
        intro y hy
        rcases mem_append.mp hy with hy | hy
        · exact (Nat.le_of_lt (cross y hy x (by simp))).trans past
        · rw [mem_singleton.mp hy]
          exact past
      have cut : Row.visible t0 rows = pre ++ [x] := by
        rw [split]
        exact visible_append all later
      have none_ : ((pre ++ [x]).filter fun y => decide (y.key = k) && decide (t0 < y.ts)) =
          [] := by
        apply filter_eq_nil_iff.mpr
        intro y hy
        simp [(all y hy).not_gt]
      refine ⟨v0, ?_, by simpa [none_] using counter⟩
      rw [← start, contentsAt, cut]
    · have after : t0 < x.ts := not_le.mp past
      have split' : rows = pre ++ x :: post := by rw [split, append_assoc, singleton_append]
      obtain ⟨v, before, counted⟩ := ih (x :: post) split' (by
        intro y hy
        rcases mem_cons.mp hy with rfl | hy
        · exact after
        · exact later y hy)
      have snoc : contents (ofRows (pre ++ [x])) =
          write (contents (ofRows pre)) (x.key, x.val) := by
        rw [ofRows, map_append, map_singleton, contents_snoc]
        rfl
      by_cases own : x.key = k
      · obtain ⟨i, c, here, incremented⟩ := done x (by simp [split']) own after
        obtain ⟨v', value, next⟩ := kept.increment_of_last here split' incremented before counted
        refine ⟨v', by rw [snoc, ← own, write_self, value], ?_⟩
        simpa [filter_append, own, after, Int.add_assoc] using next
      · refine ⟨v, by rw [snoc, write_other _ _ (Ne.symm own), before], ?_⟩
        simpa [filter_append, own] using counted

theorem length_flatMap_of_singletons {α β : Type*} {f : α → List β} {l : List α}
    (single : ∀ a ∈ l, (f a).length = 1) : (l.flatMap f).length = l.length := by
  induction l with
  | nil => rfl
  | cons a rest ih =>
    rw [flatMap_cons, length_append, single a mem_cons_self,
      ih fun b hb => single b (mem_cons_of_mem _ hb), length_cons, add_comm]

/-- Every updater has one row of the key after the snapshot, and every such row one updater. -/
theorem Kept.length_updaters (kept : Kept EveryWrite s rows)
    (all : ∀ c ∈ s.clients, ∀ x ∈ c.wrote, x.key = k → t0 < x.ts → c ∈ s.updaters k t0)
    (done : ∀ c ∈ s.updaters k t0, ∃ x, Incremented rows c k column x) :
    (rows.filter fun x => decide (x.key = k) && decide (t0 < x.ts)).length =
      (s.updaters k t0).length := by
  have clientOf : ∀ c ∈ s.updaters k t0, ∃ i : Nat, s.clients[i]? = some c ∧ t0 ≤ c.seenTs := by
    intro c hc
    obtain ⟨there, conditions⟩ := mem_filter.mp hc
    simp only [Bool.and_eq_true, decide_eq_true_eq] at conditions
    obtain ⟨i, here⟩ := mem_iff_getElem?.mp there
    exact ⟨i, here, conditions.2⟩
  have single : ∀ c ∈ s.updaters k t0, (c.wrote.filter fun x => decide (x.key = k)).length = 1 := by
    intro c hc
    obtain ⟨x, one⟩ := done c hc
    have perm : (c.wrote.filter fun x => decide (x.key = k)).Perm [x] := by
      apply (perm_ext_iff_of_nodup (one.nodup.filter _) (nodup_singleton x)).mpr
      intro y
      rw [mem_filter, mem_singleton, decide_eq_true_eq]
      constructor
      · exact fun both => one.only y both.1 both.2
      · rintro rfl
        exact ⟨one.wrote, one.key⟩
    simpa using perm.length_eq
  have apart : s.clients.Pairwise fun c c' => List.Disjoint
      (c.wrote.filter fun x => decide (x.key = k)) (c'.wrote.filter fun x => decide (x.key = k)) :=
        by
    apply pairwise_iff_getElem.mpr
    intro i j hi hj less x hx hx'
    have here : s.clients[i]? = some s.clients[i] := getElem?_eq_getElem hi
    have here' : s.clients[j]? = some s.clients[j] := getElem?_eq_getElem hj
    have wrote := (mem_filter.mp hx).1
    have wrote' := (mem_filter.mp hx').1
    rcases kept.seen_or_seen less.ne here here' wrote wrote' rfl with h | h
    · exact absurd (kept.timed.after j _ here' x wrote') h.not_gt
    · exact absurd (kept.timed.after i _ here x wrote) h.not_gt
  have nodup : ((s.updaters k t0).flatMap fun c =>
      c.wrote.filter fun x => decide (x.key = k)).Nodup := by
    apply nodup_flatMap.mpr ⟨?_, apart.filter _⟩
    intro c hc
    obtain ⟨x, one⟩ := done c hc
    exact one.nodup.filter _
  have perm : (rows.filter fun x => decide (x.key = k) && decide (t0 < x.ts)).Perm
      ((s.updaters k t0).flatMap fun c => c.wrote.filter fun x => decide (x.key = k)) := by
    have distinct : rows.Nodup := kept.recorded.ascending.imp fun less same => by
      rw [same] at less
      exact absurd less (lt_irrefl _)
    apply (perm_ext_iff_of_nodup (distinct.filter _) nodup).mpr
    intro x
    simp only [mem_filter, mem_flatMap, Bool.and_eq_true, decide_eq_true_eq]
    constructor
    · rintro ⟨there, key, after⟩
      obtain ⟨i, c, here, wrote⟩ := (kept.wrote x).mp there
      exact ⟨c, all c (mem_of_getElem? here) x wrote key after, wrote, key⟩
    · rintro ⟨c, hc, wrote, key⟩
      obtain ⟨i, here, came⟩ := clientOf c hc
      exact ⟨(kept.wrote x).mpr ⟨i, c, here, wrote⟩, key,
        came.trans_lt (kept.timed.after i c here x wrote)⟩
  rw [perm.length_eq, length_flatMap_of_singletons single]

/-- In every state of a run in which no client takes a key that has been written since it
came: of two clients that are through and wrote the same key one was through before the
other came, and increments of a row add up. -/
theorem updates_add_up (cfg : Settings) (config : EngineConfig) (acts : List Act) {s : Db}
    (orderly : Run.Along (Db.step cfg) Orderly (Db.init cfg config) acts)
    (clear : Run.Along (Db.step cfg) (Clear EveryWrite cfg) (Db.init cfg config) acts)
    (run : Run.run (Db.step cfg) (Db.init cfg config) acts = some s) :
    (∀ (i j : Nat) (c c' : Client), i ≠ j → s.clients[i]? = some c → s.clients[j]? = some c' →
      c.finishedAt ≠ none → c'.finishedAt ≠ none →
      ∀ w ∈ c.history, ∀ w' ∈ c'.history, w.1 = w'.1 → c.Before c' ∨ c'.Before c) ∧
    ∀ (k table column : Bytes) (t0 : Timestamp) (v0 : Bytes) (m : Int),
      s.engine.getAt cfg.order k t0 = some v0 → Counter column m v0 →
      (∀ c ∈ s.clients, ∀ x ∈ c.wrote, x.key = k → t0 < x.ts → c ∈ s.updaters k t0) →
      (∀ c ∈ s.updaters k t0, c.Increments table column) →
      ∃ v, s.engine.get k = some v ∧ Counter column (m + (s.updaters k t0).length) v := by
  have preserved : ∀ (s : Db) (a : Act) (s' : Db), (∃ rows, Kept EveryWrite s rows ∧
      ∀ (j : Nat) (c : Client), s.clients[j]? = some c → c.OneStatement rows ∧ c.Once) →
      Orderly s a ∧ Clear EveryWrite cfg s a → s.step cfg a = some s' →
      ∃ rows, Kept EveryWrite s' rows ∧
        ∀ (j : Nat) (c : Client), s'.clients[j]? = some c → c.OneStatement rows ∧ c.Once := by
    rintro s a s' ⟨rows, kept, known⟩ ⟨orderly, clear⟩ step
    obtain ⟨i, e, m, c, move, rfl⟩ := step_cases step
    obtain ⟨new, frame, kept'⟩ := kept.moved move orderly clear
    refine ⟨rows ++ new, kept', ?_⟩
    apply kept.forall_moved (fun rows c => c.OneStatement rows ∧ c.Once) move frame _ known
    · exact ⟨move.oneStatement kept fun c0 old => (known i c0 old).1,
        move.once (kept.fine i) fun c0 old => (known i c0 old).2⟩
    · rintro c later ⟨one, once⟩
      refine ⟨?_, once⟩
      simpa only [Client.OneStatement, UpdateAt, contentsAt_append later] using one
  obtain ⟨rows, kept, known⟩ := Run.invariant_of_run preserved
    ⟨[], kept_init EveryWrite cfg config, by simp [Db.init]⟩ (orderly.and clear) run
  refine ⟨?_, ?_⟩
  · intro i j c c' apart here here' finished finished' w hw w' hw' same
    have alive : ∀ (l : Nat) (d : Client), s.clients[l]? = some d → d.finishedAt ≠ none →
        d.gone = false := by
      intro l d there ended
      simp [Client.gone, (kept.fine l d there).committed ended]
    exact kept.separated i j c c' w.1 apart here here'
      ⟨alive i c here finished, w, hw, rfl, trivial⟩
      ⟨alive j c' here' finished', w', hw', same.symm, trivial⟩
  · intro k table column t0 v0 m start counter all increments
    rw [getAt_eq kept.recorded] at start
    have done : ∀ c ∈ s.updaters k t0, ∃ x, Incremented rows c k column x := by
      intro c hc
      obtain ⟨there, conditions⟩ := mem_filter.mp hc
      simp only [Bool.and_eq_true, decide_eq_true_eq] at conditions
      obtain ⟨i, here⟩ := mem_iff_getElem?.mp there
      exact kept.incremented here (known i c here).1 (known i c here).2
        (Option.isSome_iff_ne_none.mp conditions.1.1) conditions.1.2 (increments c hc)
    have rowsDone : ∀ x ∈ rows, x.key = k → t0 < x.ts → ∃ (i : Nat) (c : Client),
        s.clients[i]? = some c ∧ Incremented rows c k column x := by
      intro x there key after
      obtain ⟨i, c, here, wrote⟩ := (kept.wrote x).mp there
      obtain ⟨y, one⟩ := done c (all c (mem_of_getElem? here) x wrote key after)
      obtain rfl := one.only x wrote key
      exact ⟨i, c, here, one⟩
    obtain ⟨v, last, counted⟩ := kept.counts start counter rowsDone rows [] (append_nil _).symm
      (by simp)
    refine ⟨v, ?_, ?_⟩
    · rw [kept.recorded.get_eq]
      exact last
    · rw [← kept.length_updaters all done]
      exact counted

/-- `UPDATE t SET c = c + 1` -/
def incrementAll : QueryPlan := .update (ascii "t") (increment (ascii "c")) none

/-- A row, incremented by an autocommit statement and then by a transaction. -/
def incrementTwice : List Act :=
  [.autocommit (.insert (ascii "t") [] [.integer 1, .integer 5]), .advance 0,
    .autocommit incrementAll, .advance 1,
    .begin false, .advance 2, .advance 2, .exec 2 (.plan incrementAll), .advance 2, .commit 2,
    .advance 2]

theorem counter_of_numbers : Counter (ascii "c") 5 (ascii "id=1|c=5") := by
  have row : ascii "id=1|c=5" =
      encodeRow (setCell (ascii "c") (.integer 5) [(ascii "id", .integer 1), (ascii "c", .null)]) :=
        by
    decide
  have legible : Legible (ascii "c") [(ascii "id", .integer 1), (ascii "c", .null)] := by
    refine ⟨by decide, Or.inr ⟨by decide, ?_, by decide, by decide, Or.inl rfl⟩⟩
    exact valueFromStr_intDisplay (by decide) (by decide)
  rw [row]
  exact legible.reads_back (by decide) (by decide)

theorem updates_add_up_twice :
    ∃ s ∈ Run.run (Db.step .numbers) (Db.init .numbers .default) incrementTwice,
      (s.updaters (ascii "t:1") 1).length = 2 ∧
      ∃ v, s.engine.get (ascii "t:1") = some v ∧ Counter (ascii "c") 7 v := by
  have last : ∃ s ∈ Run.run (Db.step .numbers) (Db.init .numbers .default) incrementTwice,
      s.engine.getAt .byId (ascii "t:1") 1 = some (ascii "id=1|c=5") ∧
      (∀ c ∈ s.clients, ∀ x ∈ c.wrote, x.key = ascii "t:1" → 1 < x.ts → (c.finishedAt.isSome &&
        decide (ascii "t:1" ∈ c.history.map Prod.fst) && decide (1 ≤ c.seenTs)) = true) ∧
      (∀ c ∈ s.updaters (ascii "t:1") 1, c.Increments (ascii "t") (ascii "c")) ∧
      (s.updaters (ascii "t:1") 1).length = 2 := by decide +kernel
  obtain ⟨s, run, start, all, increments, two⟩ := last
  have both := (updates_add_up .numbers .default incrementTwice (by decide +kernel)
    (by decide +kernel) run).2 (ascii "t:1") (ascii "t") (ascii "c") 1 _ 5 start counter_of_numbers
    (fun c hc x wrote key after => mem_filter.mpr ⟨hc, all c hc x wrote key after⟩) increments
  rw [two] at both
  exact ⟨s, run, two, both⟩

/-- Two increments that overlap both succeed, as do those of two transactions of which the
second takes the lock after the first has committed; the counter is one too low. -/
theorem update_is_lost : (∃ s ∈ Run.run (Db.step .numbers) (Db.init .numbers .default)
        [.autocommit (.insert (ascii "t") [] [.integer 1, .integer 5]), .advance 0,
          .autocommit incrementAll, .autocommit incrementAll, .advance 1, .advance 2],
      (∀ c ∈ s.clients.drop 1, c.finishedAt ≠ none ∧ c.Increments (ascii "t") (ascii "c")) ∧
      s.clients.map (fun c => (c.startedAt, c.finishedAt)) =
        [(0, some 1), (2, some 4), (3, some 5)] ∧
      s.engine.get (ascii "t:1") = some (ascii "id=1|c=6")) ∧
    ∃ s ∈ Run.run (Db.step .numbers) (Db.init .numbers .default)
        [.autocommit (.insert (ascii "t") [] [.integer 1, .integer 5]), .advance 0,
          .begin false, .advance 1, .advance 1, .begin false, .advance 2, .advance 2,
          .exec 1 (.plan incrementAll), .advance 1, .commit 1, .advance 1,
          .exec 2 (.plan incrementAll), .advance 2, .commit 2, .advance 2],
      (∀ c ∈ s.clients.drop 1, c.finishedAt ≠ none ∧ c.Increments (ascii "t") (ascii "c")) ∧
      s.clients.map (fun c => (c.startedAt, c.finishedAt)) =
        [(0, some 1), (2, some 11), (5, some 15)] ∧
      s.engine.get (ascii "t:1") = some (ascii "id=1|c=6") := by
  constructor
  · decide +kernel
  · decide +kernel

end Runs

end GalaxDb.Sql
