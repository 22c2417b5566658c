import GalaxDb.Lib.Newest
import Mathlib.Logic.Function.Basic
import Mathlib.Data.List.Induction

/-!
# Guarded runs and write logs

A run feeds actions to a partial step function. A guard says for which state and action
a step is meant to be taken; the rule below carries a relation between the states of a
run and those of a simpler machine along every run whose steps meet the guard.
-/

universe u v w

namespace Run

variable {σ : Type u} {α : Type v} {β : Type w}

def run (step : σ → α → Option σ) (s : σ) (acts : List α) : Option σ :=
  acts.foldlM step s

/-- Every step of the run meets the guard in the state it starts from. -/
def Along (step : σ → α → Option σ) (guard : σ → α → Prop) : σ → List α → Prop
  | _, [] => True
  | s, a :: rest => guard s a ∧ ∀ s', step s a = some s' → Along step guard s' rest

instance instDecidableAlong {step : σ → α → Option σ} {guard : σ → α → Prop}
    [∀ s a, Decidable (guard s a)] :
    (s : σ) → (acts : List α) → Decidable (Along step guard s acts)
  | _, [] => isTrue trivial
  | s, a :: rest =>
    match h : step s a with
    | none => decidable_of_iff (guard s a)
        ⟨fun here => ⟨here, fun s' eq => by rw [h] at eq; cases eq⟩, And.left⟩
    | some s1 =>
      have : Decidable (Along step guard s1 rest) := instDecidableAlong s1 rest
      decidable_of_iff (guard s a ∧ Along step guard s1 rest)
        ⟨fun both => ⟨both.1, fun s' eq => by rw [h] at eq; cases eq; exact both.2⟩,
          fun both => ⟨both.1, both.2 s1 h⟩⟩

variable {step : σ → α → Option σ} {guard : σ → α → Prop}

variable {guard' : σ → α → Prop} {Inv : σ → Prop} {rest : List α}

theorem Along.mono (weaker : ∀ s a, guard s a → guard' s a) :
    ∀ {acts : List α} {s : σ}, Along step guard s acts → Along step guard' s acts
  | [], _, _ => trivial
  | _ :: _, s, ⟨here, later⟩ => ⟨weaker s _ here, fun s' h => (later s' h).mono weaker⟩

theorem Along.and : ∀ {acts : List α} {s : σ}, Along step guard s acts → Along step guard' s acts →
      Along step (fun s a => guard s a ∧ guard' s a) s acts
  | [], _, _, _ => trivial
  | _ :: _, _, ⟨here, later⟩, ⟨here', later'⟩ =>
    ⟨⟨here, here'⟩, fun s' h => (later s' h).and (later' s' h)⟩

/-- Two guards that agree on an invariant, which either of them keeps, admit the same runs. -/
theorem along_iff {step : σ → α → Option σ} {guard guard' : σ → α → Prop} {Inv : σ → Prop}
    (same : ∀ s a, Inv s → (guard s a ↔ guard' s a))
    (preserved : ∀ s a s', Inv s → guard s a → step s a = some s' → Inv s') :
    ∀ {acts : List α} {s : σ}, Inv s → (Along step guard s acts ↔ Along step guard' s acts)
  | [], _, _ => Iff.rfl
  | a :: rest, s, inv => by
    constructor
    · rintro ⟨here, later⟩
      refine ⟨(same s a inv).mp here, ?_⟩
      intro s' h
      exact (along_iff same preserved (preserved s a s' inv here h)).mp (later s' h)
    · rintro ⟨here', later⟩
      have here := (same s a inv).mpr here'
      refine ⟨here, ?_⟩
      intro s' h
      exact (along_iff same preserved (preserved s a s' inv here h)).mpr (later s' h)

/-- What an invariant and the guard imply in every state holds at every step of the run. -/
theorem Along.of_invariant {shown : σ → α → Prop}
    (preserved : ∀ s a s', Inv s → guard s a → step s a = some s' → Inv s')
    (shows : ∀ s a, Inv s → guard s a → shown s a) :
    ∀ {acts : List α} {s : σ}, Along step guard s acts → Inv s → Along step shown s acts
  | [], _, _, _ => trivial
  | a :: _, s, ⟨here, later⟩, inv => ⟨shows s a inv here, fun s' h =>
    (later s' h).of_invariant preserved shows (preserved s a s' inv here h)⟩

/-- A guard that only looks at the action. -/
theorem along_of_forall {step : σ → α → Option σ} {P : α → Prop} :
    ∀ {acts : List α} (s : σ), (∀ a ∈ acts, P a) → Along step (fun _ a => P a) s acts
  | [], _, _ => trivial
  | a :: _, _, h => ⟨h a List.mem_cons_self,
    fun s' _ => along_of_forall s' fun b hb => h b (List.mem_cons_of_mem a hb)⟩

theorem simulation {step : σ → α → Option σ} {guard : σ → α → Prop} {Rel : σ → β → Prop}
    (next : β → α → β)
    (preserved : ∀ s b a, Rel s b → guard s a → ∃ s', step s a = some s' ∧ Rel s' (next b a)) :
    ∀ {acts : List α} {s : σ} {b : β}, Rel s b → Along step guard s acts →
      ∃ s', run step s acts = some s' ∧ Rel s' (acts.foldl next b)
  | [], s, _, rel, _ => ⟨s, rfl, rel⟩
  | a :: rest, s, b, rel, ⟨here, later⟩ => by
    obtain ⟨s1, eq, rel1⟩ := preserved s b a rel here
    obtain ⟨s2, eq2, rel2⟩ := simulation next preserved rel1 (later s1 eq)
    exact ⟨s2, by rw [run, List.foldlM_cons, eq]; exact eq2, rel2⟩

theorem invariant (preserved : ∀ s a, Inv s → guard s a → ∃ s', step s a = some s' ∧ Inv s')
    {acts : List α} {s : σ} (init : Inv s) (along : Along step guard s acts) :
    ∃ s', run step s acts = some s' ∧ Inv s' :=
  @simulation σ α Unit step guard (fun s _ => Inv s) (fun _ _ => ()) (fun s _ a => preserved s a)
    acts s () init along

/-- The rule for steps that need not be possible. -/
theorem invariant_of_run {step : σ → α → Option σ} {guard : σ → α → Prop} {Inv : σ → Prop}
    (preserved : ∀ s a s', Inv s → guard s a → step s a = some s' → Inv s') :
    ∀ {acts : List α} {s s' : σ}, Inv s → Along step guard s acts → run step s acts = some s' →
      Inv s'
  | [], _, _, inv, _, h => by
    cases h
    exact inv
  | a :: rest, s, s', inv, ⟨here, later⟩, h => by
    obtain ⟨s1, eq, h⟩ := Option.bind_eq_some_iff.mp h
    exact invariant_of_run preserved (preserved s a s1 inv here eq) (later s1 eq) h

/-- The rule for a simulation of steps that need not be possible. -/
theorem simulation_of_run {Rel : σ → β → Prop} (next : β → α → β)
    (preserved : ∀ s b a s', Rel s b → guard s a → step s a = some s' → Rel s' (next b a)) :
    ∀ {acts : List α} {s s' : σ} {b : β}, Rel s b → Along step guard s acts →
      run step s acts = some s' → Rel s' (acts.foldl next b)
  | [], _, _, _, rel, _, h => by
    cases h
    exact rel
  | a :: rest, s, s', b, rel, ⟨here, later⟩, h => by
    obtain ⟨s1, eq, h⟩ := Option.bind_eq_some_iff.mp h
    rw [List.foldl_cons]
    exact simulation_of_run next preserved (preserved s b a s1 rel here eq) (later s1 eq) h

/-- Every state that a part of the run leads to, the first one included. -/
def Throughout (step : σ → α → Option σ) (P : σ → Prop) (s : σ) (acts : List α) : Prop :=
  ∀ done later s', done ++ later = acts → run step s done = some s' → P s'

theorem Throughout.tail {step : σ → α → Option σ} {P : σ → Prop} {s s' : σ} {a : α}
    {rest : List α} (all : Throughout step P s (a :: rest)) (taken : step s a = some s') :
    Throughout step P s' rest := by
  intro done later last split ran
  refine all (a :: done) later last (congrArg (a :: ·) split) ?_
  rw [run, List.foldlM_cons, taken]
  exact ran

theorem throughout_iff_along {P : σ → Prop} : ∀ {acts : List α} {s : σ}, Throughout step P s acts ↔
      P s ∧ Along step (fun s a => ∀ s', step s a = some s' → P s') s acts
  | [], s => by
    constructor
    · intro all
      exact ⟨all [] [] s rfl rfl, trivial⟩
    · rintro ⟨here, _⟩ done later s' split h
      obtain ⟨rfl, _⟩ := List.append_eq_nil_iff.mp split
      cases h
      exact here
  | a :: rest, s => by
    constructor
    · intro all
      refine ⟨all [] _ s rfl rfl, ⟨?_, ?_⟩⟩
      · intro s1 eq
        refine all [a] rest s1 rfl ?_
        rw [run, List.foldlM_cons, eq]
        rfl
      · intro s1 eq
        exact (throughout_iff_along.mp (all.tail eq)).2
    · rintro ⟨here, next, later⟩ done after s' split h
      cases done with
      | nil =>
        cases h
        exact here
      | cons b done =>
        obtain ⟨rfl, tail⟩ := List.cons.inj split
        obtain ⟨s1, eq, h⟩ := Option.bind_eq_some_iff.mp h
        exact throughout_iff_along.mpr ⟨next s1 eq, later s1 eq⟩ done after s' tail h

theorem Along.append {rest : List α} : ∀ {acts : List α} {s : σ}, Along step guard s acts →
      (∀ s', run step s acts = some s' → Along step guard s' rest) →
        Along step guard s (acts ++ rest)
  | [], s, _, later => later s rfl
  | a :: acts, s, ⟨here, more⟩, later => ⟨here, fun s' h => (more s' h).append fun s'' ran =>
      later s'' (by rw [run, List.foldlM_cons, h]; exact ran)⟩

theorem Along.front :
    ∀ {acts : List α} {s : σ}, Along step guard s (acts ++ rest) → Along step guard s acts
  | [], _, _ => trivial
  | _ :: _, _, ⟨here, later⟩ => ⟨here, fun s' h => (later s' h).front⟩

/-- The rest of a run, from the state its first part ends in. -/
theorem Along.after :
    ∀ {acts : List α} {s s' : σ}, Along step guard s (acts ++ rest) → run step s acts = some s' →
      Along step guard s' rest
  | [], _, _, along, h => by
    cases h
    exact along
  | a :: acts, s, s', ⟨_, later⟩, h => by
    obtain ⟨s1, eq, h⟩ := Option.bind_eq_some_iff.mp h
    exact (later s1 eq).after h

end Run

namespace WriteLog

variable {κ : Type u} {ν : Type v} [DecidableEq κ]

/-- The contents of a store after one more write; no value is a delete. -/
def write (m : κ → Option ν) (w : κ × Option ν) : κ → Option ν := Function.update m w.1 w.2

/-- The last write to a key in a log. -/
def lastWrite (log : List (κ × Option ν)) (k : κ) : Option (Option ν) :=
  (log.reverse.find? (fun w => w.1 = k)).map Prod.snd

theorem lastWrite_snoc (log : List (κ × Option ν)) (w : κ × Option ν) (k : κ) :
    lastWrite (log ++ [w]) k = if w.1 = k then some w.2 else lastWrite log k := by
  by_cases here : w.1 = k <;> simp [lastWrite, here]

variable {log : List (κ × Option ν)} {m : κ → Option ν} {k : κ}

theorem lastWrite_ne_none_iff : lastWrite log k ≠ none ↔ k ∈ log.map Prod.fst := by
  simp [lastWrite, List.find?_eq_none]

theorem write_self (m : κ → Option ν) (k : κ) (v : Option ν) : write m (k, v) k = v := by
  simp [write]

theorem write_other (m : κ → Option ν) {k' : κ} (v : Option ν) (h : k' ≠ k) :
    write m (k, v) k' = m k' := by
  simp [write, h]

variable {later : List (κ × Option ν)} {rows : List (Row κ ν)} {v : Option ν}

theorem write_of_eq (h : m k = v) : write m (k, v) = m := by
  rw [write, ← h, Function.update_eq_self]

theorem foldl_write (m : κ → Option ν) (log : List (κ × Option ν)) (k : κ) :
    log.foldl write m k = (lastWrite log k).getD (m k) := by
  induction log generalizing m with
  | nil => rfl
  | cons w rest ih =>
    rw [List.foldl_cons, ih, lastWrite, lastWrite, List.reverse_cons, List.find?_append]
    cases rest.reverse.find? (fun w => w.1 = k) with
    | some w' => rfl
    | none =>
      by_cases here : w.1 = k
      · subst here
        simp [write]
      · simp [write, here, Ne.symm here]

theorem mem_of_lastWrite (last : lastWrite log k = some v) : (k, v) ∈ log := by
  obtain ⟨w, found, rfl⟩ := Option.map_eq_some_iff.mp last
  have key : w.1 = k := by simpa using List.find?_some found
  subst key
  exact List.mem_reverse.mp (List.mem_of_find?_eq_some found)

/-- A log changes nothing exactly if every last write finds its value there already. -/
theorem foldl_write_eq_self_iff (m : κ → Option ν) (log : List (κ × Option ν)) :
    log.foldl write m = m ↔ ∀ k v, lastWrite log k = some v → m k = v := by
  constructor
  · intro same k v last
    have here := congrFun same k
    rw [foldl_write, last] at here
    exact here.symm
  · intro stored
    funext k
    rw [foldl_write]
    cases last : lastWrite log k with
    | none => rfl
    | some v => exact (stored k v last).symm

/-- What the writes of a log leave in a store that started empty. -/
def contents (log : List (κ × Option ν)) : κ → Option ν := log.foldl write fun _ => none

theorem contents_snoc (log : List (κ × Option ν)) (w : κ × Option ν) :
    contents (log ++ [w]) = write (contents log) w := by
  simp [contents]

theorem contents_eq (log : List (κ × Option ν)) (k : κ) :
    contents log k = (lastWrite log k).join := by
  rw [contents, foldl_write]
  cases lastWrite log k <;> rfl

/-- A log that writes a value only where there is none. -/
def Inserts (m : κ → Option ν) : List (κ × Option ν) → Prop
  | [] => True
  | w :: rest => (w.2 ≠ none → m w.1 = none) ∧ Inserts (write m w) rest

theorem inserts_append (m : κ → Option ν) (log later : List (κ × Option ν)) :
    Inserts m (log ++ later) ↔ Inserts m log ∧ Inserts (log.foldl write m) later := by
  induction log generalizing m with
  | nil => simp [Inserts]
  | cons w rest ih => simp [Inserts, ih, and_assoc]

theorem inserts_of_deletes (m : κ → Option ν) (deletes : ∀ w ∈ log, w.2 = none) :
    Inserts m log := by
  induction log generalizing m with
  | nil => trivial
  | cons w rest ih =>
    refine ⟨fun value => absurd (deletes w List.mem_cons_self) value, ?_⟩
    exact ih _ fun w' hw' => deletes w' (List.mem_cons_of_mem _ hw')

/-- New keys, each of them once. -/
theorem inserts_of_nodup (distinct : (log.map Prod.fst).Nodup) (free : ∀ w ∈ log, m w.1 = none) :
    Inserts m log := by
  induction log generalizing m with
  | nil => trivial
  | cons w rest ih =>
    obtain ⟨once, distinct⟩ := List.nodup_cons.mp distinct
    refine ⟨fun _ => free w List.mem_cons_self, ih distinct ?_⟩
    intro w' hw'
    have other : w'.1 ≠ w.1 := fun same => once (same ▸ List.mem_map_of_mem hw')
    rw [write, Function.update_of_ne other]
    exact free w' (List.mem_cons_of_mem _ hw')

/-- Before a value is written the key was deleted, or was free at the start and untouched. -/
theorem Inserts.before {v : ν} (inserts : Inserts m (log ++ (k, some v) :: later)) :
    (k, none) ∈ log ∨ lastWrite log k = none ∧ m k = none := by
  have free := ((inserts_append m log _).mp inserts).2.1 (by simp)
  rw [foldl_write] at free
  cases last : lastWrite log k with
  | none => exact Or.inr ⟨rfl, by simpa [last] using free⟩
  | some w =>
    obtain rfl : w = none := by simpa [last] using free
    exact Or.inl (mem_of_lastWrite last)

/-- After a value is written it stays until the key is deleted. -/
theorem lastWrite_of_no_delete {log later : List (κ × Option ν)} {k : κ} {v : ν}
    (kept : (k, none) ∉ later) : ∃ v', lastWrite (log ++ (k, some v) :: later) k =
      some (some v') := by
  induction later using List.reverseRecOn with
  | nil => exact ⟨v, by simp [lastWrite_snoc]⟩
  | append_singleton later w ih =>
    rw [← List.cons_append, ← List.append_assoc, lastWrite_snoc]
    simp only [List.mem_append, not_or, List.mem_singleton] at kept
    split
    · rename_i same
      obtain ⟨k', value⟩ := w
      subst same
      cases value with
      | none => exact absurd rfl kept.2
      | some v' => exact ⟨v', rfl⟩
    · exact ih kept.1

/-- Between two values of a key there is a delete. -/
theorem Inserts.between {between : List (κ × Option ν)} {v v' : ν}
    (inserts : Inserts m (log ++ (k, some v) :: between ++ (k, some v') :: later)) :
    (k, none) ∈ between := by
  by_contra kept
  obtain ⟨v0, last⟩ := @lastWrite_of_no_delete _ _ _ log between k v kept
  have free := ((inserts_append m (log ++ (k, some v) :: between) _).mp inserts).2.1 (by simp)
  rw [foldl_write, last] at free
  simp at free

/-- Rows as writes. -/
def ofRows (rows : List (Row κ ν)) : List (κ × Option ν) := rows.map fun r => (r.key, r.val)

/-- Each row is newer than the rows of its key before it. -/
def Ascending (rows : List (Row κ ν)) : Prop :=
  rows.Pairwise fun a b => a.key = b.key → a.ts < b.ts

omit [DecidableEq κ] in
theorem Ascending.snoc (h : Ascending rows) {r : Row κ ν}
    (newer : ∀ x ∈ rows, x.key = r.key → x.ts < r.ts) : Ascending (rows ++ [r]) := by
  refine List.pairwise_append.mpr ⟨h, List.pairwise_singleton _ r, ?_⟩
  intro x hx y hy
  rw [List.mem_singleton.mp hy]
  exact newer x hx

/-- In an ascending log the last write of a key is its newest row. -/
theorem contents_ofRows_iff (ascending : Ascending rows) (k : κ) (v : ν) :
    contents (ofRows rows) k = some v ↔ ∃ ts, Row.Newest rows k ⟨k, ts, some v⟩ := by
  induction rows using List.reverseRecOn with
  | nil => simp [ofRows, contents, Row.Newest]
  | append_singleton rows r ih =>
    obtain ⟨before, _, newer⟩ := List.pairwise_append.mp ascending
    have older : ∀ x ∈ rows, x.key = r.key → x.ts < r.ts :=
      fun x hx => newer x hx r List.mem_cons_self
    have split : ofRows (rows ++ [r]) = ofRows rows ++ [(r.key, r.val)] := by simp [ofRows]
    rw [split, contents_snoc]
    by_cases same : r.key = k
    · subst same
      rw [write_self]
      constructor
      · intro hv
        refine ⟨r.ts, Row.newest_snoc.mpr (Or.inr ⟨?_, rfl, ?_⟩)⟩
        · rw [← hv]
        · exact fun x hx hk => Nat.le_of_lt (older x hx hk)
      · rintro ⟨ts, newest⟩
        rcases Row.newest_snoc.mp newest with ⟨⟨inside, _, _⟩, le⟩ | ⟨eq, _, _⟩
        · have lt : ts < r.ts := older _ inside rfl
          exact absurd (le rfl) (Nat.not_le_of_lt lt)
        · rw [← eq]
    · rw [write_other _ _ (Ne.symm same), ih before]
      exact exists_congr fun ts => (Row.newest_snoc_other same).symm

end WriteLog
