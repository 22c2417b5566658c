import GalaxDb.Sql.Readers
import GalaxDb.Sql.SessionRun

/-!
# Snapshots and commits

A commit applies its writes one by one. A transaction that begins between two of them has
a snapshot with one part of the commit; if no transaction begins there, every snapshot has
all of a commit or none of it.
-/

namespace GalaxDb.Sql

open Bytes Executor

variable {cfg : Settings} {s : Db}

/-- No transaction begins while a commit has applied some of its writes but not all. -/
def WholeCommits (s : Db) : Act → Prop
  | .begin _ => ∀ c ∈ s.clients, c.readTs ≠ none → c.wrote ≠ [] → c.finishedAt ≠ none
  | _ => True

instance (s : Db) (a : Act) : Decidable (WholeCommits s a) := by
  unfold WholeCommits
  split <;> infer_instance

/-- What a transaction has written is after the snapshot, or was complete when it was
taken and is part of it. -/
def Client.Apart (c c' : Client) (t : Timestamp) : Prop :=
  (∀ x ∈ c'.wrote, t < x.ts) ∨
    (∃ f, c'.finishedAt = some f ∧ f < c.startedAt) ∧ ∀ x ∈ c'.wrote, x.ts ≤ t

def Atomic (s : Db) : Prop :=
  ∀ (i j : Nat) (c c' : Client) (t : Timestamp), s.clients[i]? = some c → s.clients[j]? = some c' →
    c.readTs = some t → c'.readTs ≠ none → c.Apart c' t

variable {new rows : List (Row Bytes Bytes)} {t : Timestamp} {e : Engine} {c : Client} {i : Nat}

/-- Rows that are added later are after every snapshot there is. -/
theorem Atomic.writer (base : Base s rows) (atomic : Atomic s) {c' : Client}
    (frame : Frame s i e c' rows new) {k : Nat} (reader : s.clients[k]? = some c)
    (snapshot : c.readTs = some t) (txn : c'.readTs ≠ none) : c.Apart c' t := by
  have past := base.snapshot k c reader t snapshot
  cases old : s.clients[i]? with
  | none => exact Or.inl (by simp [(frame.fresh old).1])
  | some c0 =>
    obtain ⟨wrote, readTs, -, finished, ended⟩ := frame.old c0 old
    rcases atomic k i c c0 t reader old snapshot (readTs ▸ txn) with
      after | ⟨⟨f, done, before⟩, part⟩
    · left
      intro x hx
      rw [wrote] at hx
      rcases List.mem_append.mp hx with hx | hx
      · exact after x hx
      · exact Nat.lt_of_lt_of_le past (frame.later x hx)
    · right
      have none_new : new = [] := ended (by simp [done])
      rw [none_new, List.append_nil] at wrote
      rcases finished with same | ⟨open_, -⟩
      · exact ⟨⟨f, same.trans done, before⟩, wrote ▸ part⟩
      · simp [open_] at done

/-- Each move keeps the commits whole. -/
theorem Atomic.moved {a : Act} {m : TransactionManager} (base : Base s rows) (atomic : Atomic s)
    (move : Move cfg s a i e m c) (frame : Frame s i e c rows new) (whole : WholeCommits s a) :
    Atomic (s.moved i e m c) := by
  intro k j ck cj t reader writer snapshot txn
  rw [moved_clients move.place] at reader writer
  by_cases new_reader : k = i ∧ s.clients[i]? = none
  · -- a snapshot that is taken now
    obtain ⟨rfl, absent⟩ := new_reader
    rw [if_pos rfl] at reader
    cases reader
    obtain ⟨empty, -, started, readTs, -⟩ := frame.fresh absent
    have now : t = s.engine.latestCommitTs := by
      rcases readTs with h | h <;> simp_all
    split at writer
    · cases writer
      exact Or.inl (by simp [empty])
    · by_cases idle : cj.wrote = []
      · exact Or.inl (by simp [idle])
      · have begun : ∃ serializable, a = .begin serializable := by
          cases move
          case autoFailed => simp [Db.newClient] at snapshot
          case autoPlanned => simp [Client.applyRest_frame, Db.newClient] at snapshot
          all_goals simp_all
        obtain ⟨serializable, rfl⟩ := begun
        have done : cj.finishedAt ≠ none :=
          whole cj (List.mem_of_getElem? writer) txn idle
        obtain ⟨f, done⟩ := Option.ne_none_iff_exists'.mp done
        right
        refine ⟨⟨f, done, ?_⟩, ?_⟩
        · rw [started]
          exact base.finished j cj writer f done
        · intro x hx
          rw [now]
          exact Nat.le_sub_one_of_lt (base.recorded.past x ((base.wrote x).mpr ⟨j, cj, writer, hx⟩))
  · -- the reader is there already, and its snapshot stays
    have kept : ∃ c0, s.clients[k]? = some c0 ∧ c0.readTs = some t ∧
        c0.startedAt = ck.startedAt := by
      split at reader
      · rename_i same
        cases reader
        subst same
        cases old : s.clients[k]? with
        | none => simp [old] at new_reader
        | some c0 =>
          obtain ⟨-, readTs, started, -⟩ := frame.old c0 old
          exact ⟨c0, rfl, readTs ▸ snapshot, started.symm⟩
      · exact ⟨ck, reader, snapshot, rfl⟩
    obtain ⟨c0, reader0, snapshot0, started⟩ := kept
    have apart : c0.Apart cj t := by
      split at writer
      · cases writer
        exact Atomic.writer base atomic frame reader0 snapshot0 txn
      · exact atomic k j c0 cj t reader0 writer snapshot0 txn
    simpa only [Client.Apart, started] using apart

/-- What a snapshot shows has been written by some client. -/
theorem Base.writer_of_contentsAt (base : Base s rows) {k v : Bytes}
    (shown : Engine.contentsAt rows t k = some v) :
    ∃ (j : Nat) (c : Client) (x : Row Bytes Bytes), s.clients[j]? = some c ∧ x ∈ c.wrote ∧
      x.key = k ∧ x.val = some v ∧ x.ts ≤ t := by
  have ascending : WriteLog.Ascending (Row.visible t rows) :=
    Engine.ascending_of_pairwise (base.recorded.ascending.filter _)
  obtain ⟨ts, newest⟩ := (WriteLog.contents_ofRows_iff ascending k v).mp shown
  obtain ⟨inside, le⟩ := Row.mem_visible.mp newest.1
  obtain ⟨j, c, here, wrote⟩ := (base.wrote _).mp inside
  exact ⟨j, c, _, here, wrote, rfl, rfl, le⟩

/-- In every state of a run in which no transaction begins inside a commit: a snapshot has
all rows of a committed transaction or none, and what a transaction reads is its own write,
or was written by an autocommit statement or by a transaction that had committed before. -/
theorem snapshots_of_whole_commits (cfg : Settings) (config : EngineConfig) (acts : List Act)
    {s : Db} (orderly : Run.Along (Db.step cfg) Orderly (Db.init cfg config) acts)
    (whole : Run.Along (Db.step cfg) WholeCommits (Db.init cfg config) acts)
    (run : Run.run (Db.step cfg) (Db.init cfg config) acts = some s) {i : Nat} {c : Client}
    {t : Timestamp} (reader : s.clients[i]? = some c) (snapshot : c.readTs = some t) :
    (∀ (j : Nat) (c' : Client), s.clients[j]? = some c' → c'.readTs ≠ none →
        c'.finishedAt ≠ none → (∀ x ∈ c'.wrote, x.ts ≤ t) ∨ ∀ x ∈ c'.wrote, t < x.ts) ∧
      ∀ txn, c.handle = some txn → ∀ table k v,
        (k, v) ∈ (Reader.snapshot s.engine cfg.order txn).tableRows table ∨
          (Reader.snapshot s.engine cfg.order txn).get k = some v →
        txn.writes[k]? = some (some v) ∨
          ∃ (j : Nat) (c' : Client) (x : Row Bytes Bytes), s.clients[j]? = some c' ∧
            x ∈ c'.wrote ∧ x.key = k ∧ x.val = some v ∧ x.ts ≤ t ∧
            (c'.readTs = none ∨ ∃ f, c'.finishedAt = some f ∧ f < c.startedAt) := by
  have preserved : ∀ (s : Db) (a : Act) (s' : Db), (∃ rows, Base s rows ∧ Atomic s) →
      Orderly s a ∧ WholeCommits s a → s.step cfg a = some s' →
        ∃ rows, Base s' rows ∧ Atomic s' := by
    rintro s a s' ⟨rows, base, atomic⟩ ⟨orderly, whole⟩ step
    obtain ⟨i, e, m, c, move, rfl⟩ := step_cases step
    obtain ⟨new, frame⟩ := move.frame base orderly
    exact ⟨rows ++ new, base.moved move.place m frame, atomic.moved base move frame whole⟩
  obtain ⟨rows, base, atomic⟩ := Run.invariant_of_run preserved
    ⟨[], base_init cfg config, by simp [Atomic, Db.init]⟩ (orderly.and whole) run
  refine ⟨fun j c' writer txn _ => ?_, fun txn handle table k v shown => ?_⟩
  · rcases atomic i j c c' t reader writer snapshot txn with after | ⟨-, part⟩
    · exact Or.inr after
    · exact Or.inl part
  · have same : txn.readTs = t :=
      Option.some.inj (((base.fine i c reader).handle handle).symm.trans snapshot)
    have shows := shows_snapshot base.recorded cfg.order txn
    have found : buffered (Engine.contentsAt rows txn.readTs) txn.writes k = some v := by
      rcases shown with listed | got
      · exact ((shows.rows table k v).mp listed).2
      · rw [← shows.get]
        exact got
    rw [buffered] at found
    cases own : txn.writes[k]? with
    | some w =>
      simp only [own, Option.getD_some] at found
      exact Or.inl (by rw [found])
    | none =>
      simp only [own, Option.getD_none, same] at found
      obtain ⟨j, c', x, writer, wrote, key, val, le⟩ := base.writer_of_contentsAt found
      refine Or.inr ⟨j, c', x, writer, wrote, key, val, le, ?_⟩
      by_cases auto : c'.readTs = none
      · exact Or.inl auto
      · rcases atomic i j c c' t reader writer snapshot auto with after | ⟨done, -⟩
        · exact absurd (after x wrote) (Nat.not_lt_of_le le)
        · exact Or.inr done

/-- Two rows, and a transaction that updates both. -/
def updateOfTwoRows : List Act :=
  [.autocommit (.insert (ascii "t") [] [.integer 1, .integer 5]), .advance 0,
    .autocommit (.insert (ascii "t") [] [.integer 2, .integer 5]), .advance 1,
    .begin false, .advance 2, .advance 2,
    .exec 2 (.plan (.update (ascii "t") [(ascii "c", .literal (.integer 9))] none)),
    .advance 2, .advance 2, .commit 2]

theorem snapshots_of_whole_commits_after_update :
    let acts := updateOfTwoRows ++ [.advance 2, .advance 2, .begin false, .advance 3, .advance 3]
    ∃ s ∈ Run.run (Db.step .numbers) (Db.init .numbers .default) acts,
      ∃ c, s.clients[3]? = some c ∧ c.readTs = some 4 ∧
        ∀ (j : Nat) (c' : Client), s.clients[j]? = some c' → c'.readTs ≠ none →
          c'.finishedAt ≠ none → (∀ x ∈ c'.wrote, x.ts ≤ 4) ∨ ∀ x ∈ c'.wrote, 4 < x.ts := by
  intro acts
  have last : ∃ s ∈ Run.run (Db.step .numbers) (Db.init .numbers .default) acts,
      ∃ c ∈ s.clients[3]?, c.readTs = some 4 := by decide +kernel
  obtain ⟨s, run, c, reader, snapshot⟩ := last
  exact ⟨s, run, c, reader, snapshot, (snapshots_of_whole_commits .numbers .default acts
    (by decide +kernel) (by decide +kernel) run reader snapshot).1⟩

/-- A transaction that begins between the two writes of the commit sees the first row
updated and the second one not. -/
theorem snapshot_of_half_a_commit :
    let acts := updateOfTwoRows ++ [.advance 2, .begin false, .advance 2, .advance 3, .advance 3]
    ∃ s ∈ Run.run (Db.step .numbers) (Db.init .numbers .default) acts,
      (∃ c ∈ s.clients[2]?, c.readTs ≠ none ∧ c.finishedAt ≠ none ∧
        ¬ ((∀ x ∈ c.wrote, x.ts ≤ 3) ∨ ∀ x ∈ c.wrote, 3 < x.ts)) ∧
      ∃ c ∈ s.clients[3]?, c.readTs = some 3 ∧ ∃ txn ∈ c.handle,
        (Reader.snapshot s.engine .byId txn).tableRows (ascii "t") =
          [(ascii "t:1", ascii "id=1|c=9"), (ascii "t:2", ascii "id=2|c=5")] := by
  decide +kernel

end GalaxDb.Sql
