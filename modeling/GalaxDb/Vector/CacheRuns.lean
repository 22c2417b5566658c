import GalaxDb.Vector.SemanticCache

/-!
# The cache answers as the index does

While a search holds the lock shared the vectors stay as they are, and a write empties the cache
before it lets the lock go. So what the cache holds is what a search would compute, except for
the moment between a change and the emptying, when nobody can look.
-/

namespace GalaxDb.Ann

open SemanticCache List Function

section Entries

variable {V D R : Type}

namespace SemanticCache

variable {c : SemanticCache V D R} {q : Query V} {now : Nat} {e : SemCacheEntry V R}

variable {entries : List (SemCacheEntry V R)} {results : R}

theorem oldest_lt {i used : Nat} (least : oldest entries = some (i, used)) :
    i < entries.length := by
  induction entries generalizing i used with
  | nil => cases least
  | cons e rest ih =>
    rw [oldest] at least
    split at least
    · cases least
      exact Nat.zero_lt_succ _
    · next j used' below =>
      split at least
      · cases least
        exact Nat.zero_lt_succ _
      · cases least
        exact Nat.succ_lt_succ (ih below)

theorem exists_oldest (some_entry : entries ≠ []) : ∃ least, oldest entries = some least := by
  cases entries with
  | nil => exact absurd rfl some_entry
  | cons e rest =>
    rw [oldest]
    split
    · exact ⟨_, rfl⟩
    · split <;> exact ⟨_, rfl⟩

theorem mem_of_mem_evicted (mem : e ∈ c.evicted) : e ∈ c.entries := by
  rw [evicted] at mem
  split at mem
  · split at mem
    · exact mem_of_mem_eraseIdx mem
    · exact mem
  · exact mem

theorem length_evicted (room : c.entries.length ≤ c.maxEntries) (positive : 1 ≤ c.maxEntries) :
    c.evicted.length + 1 ≤ c.maxEntries := by
  rw [evicted]
  split
  · next full =>
    have some_entry : c.entries ≠ [] := by
      intro empty
      rw [empty, length_nil] at full
      omega
    obtain ⟨⟨i, used⟩, least⟩ := exists_oldest some_entry
    have removed := length_eraseIdx_add_one (oldest_lt least)
    rw [least]
    dsimp only
    omega
  · next free => omega

/-- A store adds the one entry. -/
theorem mem_store (mem : e ∈ (c.store q results now).entries) :
    e ∈ c.entries ∨ e = ⟨q.embedding, q.modelVersion, q.thresholdBits, q.k, results, now, now⟩ := by
  rw [store] at mem
  split at mem
  · rcases mem_append.mp mem with before | added
    · exact .inl (mem_of_mem_evicted before)
    · exact .inr (mem_singleton.mp added)
  · exact .inl mem

theorem maxEntries_store : (c.store q results now).maxEntries = c.maxEntries := by
  rw [store]
  split <;> rfl

theorem length_store (room : c.entries.length ≤ c.maxEntries) (positive : 1 ≤ c.maxEntries) :
    (c.store q results now).entries.length ≤ c.maxEntries := by
  rw [store]
  split
  · rw [length_append, length_singleton]
    exact length_evicted room positive
  · exact room

variable [LinearOrder D] {S : Scoring V D}

/-- Entries with the same key and results. -/
def Alike (e e' : SemCacheEntry V R) : Prop :=
  e'.queryEmbedding = e.queryEmbedding ∧ e'.thresholdBits = e.thresholdBits ∧ e'.k = e.k ∧
    e'.results = e.results

/-- A lookup adds no entry; it touches the times alone. -/
theorem mem_lookup (mem : e ∈ (c.lookup S q now).1.entries) : ∃ e' ∈ c.entries, Alike e' e := by
  rw [lookup] at mem
  split at mem
  · split at mem
    · exact ⟨e, (mem_filter.mp mem).1, rfl, rfl, rfl, rfl⟩
    · next i _ =>
      obtain ⟨j, at_j⟩ := mem_iff_getElem?.mp mem
      rw [getElem?_modify, Option.map_eq_map, Option.map_eq_some_iff] at at_j
      obtain ⟨e', at_j, rfl⟩ := at_j
      refine ⟨e', (mem_filter.mp (mem_of_getElem? at_j)).1, ?_⟩
      split <;> exact ⟨rfl, rfl, rfl, rfl⟩
  · exact ⟨e, mem, rfl, rfl, rfl, rfl⟩

theorem length_lookup : (c.lookup S q now).1.entries.length ≤ c.entries.length := by
  rw [lookup]
  split
  · split
    · exact length_filter_le _ _
    · rw [length_modify]
      exact length_filter_le _ _
  · exact le_rfl

theorem maxEntries_lookup : (c.lookup S q now).1.maxEntries = c.maxEntries := by
  rw [lookup]
  split
  · split <;> rfl
  · rfl

/-- What is served is the results of an entry that matches and has not expired. -/
theorem lookup_eq_some (hit : (c.lookup S q now).2 = some results) :
    ∃ e ∈ c.entries, Matches S c q e ∧ now - e.createdAt < c.ttl ∧ e.results = results := by
  rw [lookup] at hit
  split at hit
  · split at hit
    · cases hit
    · next i found =>
      obtain ⟨e, at_i, rfl⟩ := Option.map_eq_some_iff.mp hit
      obtain ⟨_, matched, -⟩ := findIdx?_eq_some_iff_getElem.mp found
      obtain ⟨mem, fresh⟩ := mem_filter.mp (mem_of_getElem? at_i)
      rw [(List.getElem?_eq_some_iff.mp at_i).2] at matched
      exact ⟨e, mem, of_decide_eq_true matched, of_decide_eq_true fresh, rfl⟩
  · cases hit

end SemanticCache

end Entries

section Runs

variable {V D : Type}

/-- A search that holds the lock. -/
def Phase.Reads : Phase V D → Prop
  | .searching _ | .missed _ | .computed _ _ => True
  | _ => False

/-- A write that holds the lock. -/
def Phase.Writes : Phase V D → Prop
  | .insertLocked _ _ | .deleteLocked _ _ | .changed => True
  | _ => False

variable [LinearOrder D]

namespace Backend

/-- What a search of the index as it is would answer. -/
def Exact (S : Scoring V D) (b : Backend V D) (embedding : V) (thresholdBits : UInt64) (k : Nat)
    (answer : Answer D) : Prop :=
  answer.results = executeSemanticMatch S b.index.contents embedding thresholdBits k ∧
    answer.changed = b.changed

/-- Who is in a phase that holds the lock holds it, and the cache and the searches are exact
unless a write is between its change and its invalidation. -/
structure Sound (S : Scoring V D) (b : Backend V D) : Prop where
  readers : ∀ t, (b.phase t).Reads → t ∈ b.readers
  writer : ∀ t, (b.phase t).Writes → b.writer = some t
  alone : ∀ t, b.writer = some t → b.readers = []
  entries : (∀ t, b.phase t ≠ .changed) → ∀ e ∈ b.index.semanticCache.entries,
    b.Exact S e.queryEmbedding e.thresholdBits e.k e.results
  computed : ∀ t q answer, b.phase t = .computed q answer →
    b.Exact S q.embedding q.thresholdBits q.k answer
  room : b.index.semanticCache.entries.length ≤ b.index.semanticCache.maxEntries
  positive : 1 ≤ b.index.semanticCache.maxEntries

variable {S : Scoring V D} {b b' : Backend V D} {t : Nat}

theorem sound_initial (one : D) (index : TableIndex V D) (sidecar : Bool) :
    (initial one index sidecar).Sound S where
  readers t reads := reads.elim
  writer t writes := writes.elim
  alone t held := by cases held
  entries _ e mem := by cases mem
  computed t q answer at_t := by cases at_t
  room := Nat.zero_le _
  positive := (by decide : 1 ≤ defaultMaxEntries)

/-- Nobody changes anything while a search holds the lock. -/
theorem Sound.unchanged (h : b.Sound S) {t' : Nat} (reads : (b.phase t').Reads) (t : Nat) :
    ¬(b.phase t).Writes := by
  intro writes
  have held := h.readers t' reads
  rw [h.alone t (h.writer t writes)] at held
  cases held

/-- A step that leaves the vectors alone. -/
theorem Sound.quiet (h : b.Sound S) (phase : Phase V D) (calls : b'.phase = update b.phase t phase)
    (contents : b'.index.contents = b.index.contents) (changed : b'.changed = b.changed)
    (writer : b'.writer = b.writer) (before : ¬(b.phase t).Writes) (after : ¬phase.Writes)
    (readers : ∀ t' ≠ t, t' ∈ b.readers → t' ∈ b'.readers) (reads : phase.Reads → t ∈ b'.readers)
    (alone : b.writer ≠ none → b.readers = [] → b'.readers = [])
    (entries : (∀ e ∈ b.index.semanticCache.entries,
        b.Exact S e.queryEmbedding e.thresholdBits e.k e.results) →
      ∀ e ∈ b'.index.semanticCache.entries,
        b.Exact S e.queryEmbedding e.thresholdBits e.k e.results)
    (computed : ∀ q answer, phase = .computed q answer →
      b.Exact S q.embedding q.thresholdBits q.k answer)
    (room : b'.index.semanticCache.entries.length ≤ b'.index.semanticCache.maxEntries)
    (positive : 1 ≤ b'.index.semanticCache.maxEntries) : b'.Sound S := by
  have exact_iff : ∀ embedding thresholdBits k answer,
      b'.Exact S embedding thresholdBits k answer ↔ b.Exact S embedding thresholdBits k answer := by
    intro embedding thresholdBits k answer
    simp only [Exact, contents, changed]
  refine ⟨?_, ?_, ?_, ?_, ?_, room, positive⟩
  · intro t' reading
    rw [calls] at reading
    by_cases same : t' = t
    · subst same
      rw [update_self] at reading
      exact reads reading
    · rw [update_of_ne same] at reading
      exact readers t' same (h.readers t' reading)
  · intro t' writing
    rw [calls] at writing
    by_cases same : t' = t
    · subst same
      rw [update_self] at writing
      exact absurd writing after
    · rw [update_of_ne same] at writing
      rw [writer, h.writer t' writing]
  · intro t' held
    rw [writer] at held
    exact alone (by simp [held]) (h.alone t' held)
  · intro settled e mem
    rw [exact_iff]
    refine entries (h.entries fun t' changing => ?_) e mem
    by_cases same : t' = t
    · subst same
      exact before (by rw [changing]; trivial)
    · refine settled t' ?_
      rw [calls, update_of_ne same, changing]
  · intro t' q answer at_t'
    rw [exact_iff]
    rw [calls] at at_t'
    by_cases same : t' = t
    · subst same
      rw [update_self] at at_t'
      exact computed q answer at_t'
    · rw [update_of_ne same] at at_t'
      exact h.computed t' q answer at_t'

/-- A step that changes no phase and empties the cache or leaves it. -/
theorem Sound.stay (h : b.Sound S) (calls : b'.phase = b.phase)
    (contents : b'.index.contents = b.index.contents) (changed : b'.changed = b.changed)
    (writer : b'.writer = b.writer) (readers : b'.readers = b.readers)
    (entries : ∀ e ∈ b'.index.semanticCache.entries, e ∈ b.index.semanticCache.entries)
    (fewer : b'.index.semanticCache.entries.length ≤ b.index.semanticCache.entries.length)
    (max : b'.index.semanticCache.maxEntries = b.index.semanticCache.maxEntries) : b'.Sound S where
  readers t reads := by
    rw [readers]
    exact h.readers t (calls ▸ reads)
  writer t writes := by
    rw [writer]
    exact h.writer t (calls ▸ writes)
  alone t held := by
    rw [readers]
    exact h.alone t (writer ▸ held)
  entries settled e mem := by
    rw [Exact, contents, changed]
    exact h.entries (fun t => calls ▸ settled t) e (entries e mem)
  computed t q answer at_t := by
    rw [Exact, contents, changed]
    exact h.computed t q answer (calls ▸ at_t)
  room := by
    rw [max]
    exact fewer.trans h.room
  positive := by
    rw [max]
    exact h.positive

theorem Sound.quietPhase (h : b.Sound S) (free : b.writer = none) : ¬(b.phase t).Writes := by
  intro writes
  rw [h.writer t writes] at free
  cases free

variable {phase : Phase V D} {q : Query V}

/-- A call that takes its first step without the lock. -/
theorem Sound.goto (h : b.Sound S) (before : ¬(b.phase t).Writes) (reads : ¬phase.Reads)
    (writes : ¬phase.Writes) : (b.goto t phase).Sound S := by
  refine h.quiet phase rfl rfl rfl rfl before writes
    (fun _ _ mem => mem) (fun reading => absurd reading reads) (fun _ empty => empty)
    (fun exact e mem => exact e mem) ?_ h.room h.positive
  rintro q answer rfl
  exact absurd trivial reads

variable {index : TableIndex V D} {rowKey : Bytes} {now : Nat}

theorem Sound.lookup (h : b.Sound S) (at_t : b.phase t = .searching q)
    (next : b.step S (t, .lookup now) = some b') : b'.Sound S := by
  have before : ¬(b.phase t).Writes := by simp [at_t, Phase.Writes]
  have fewer : (b.index.semanticCache.lookup S q now).1.entries.length ≤
      (b.index.semanticCache.lookup S q now).1.maxEntries := by
    rw [maxEntries_lookup]
    exact length_lookup.trans h.room
  have positive : 1 ≤ (b.index.semanticCache.lookup S q now).1.maxEntries := by
    rw [maxEntries_lookup]
    exact h.positive
  have entries : (∀ e ∈ b.index.semanticCache.entries,
      b.Exact S e.queryEmbedding e.thresholdBits e.k e.results) →
      ∀ e ∈ (b.index.semanticCache.lookup S q now).1.entries,
        b.Exact S e.queryEmbedding e.thresholdBits e.k e.results := by
    intro exact e mem
    obtain ⟨e', mem', embedding, threshold, k, results⟩ := mem_lookup mem
    have known := exact e' mem'
    rwa [← embedding, ← threshold, ← k, ← results] at known
  simp only [step, at_t] at next
  split at next
  · next cache _ found =>
    obtain rfl : (b.index.semanticCache.lookup S q now).1 = cache := by rw [found]
    cases next
    exact h.quiet .idle rfl rfl rfl rfl before id
      (fun t' other mem => mem_filter.mpr ⟨mem, by simpa using other⟩) False.elim
      (fun _ empty => by simp [endRead, setCache, empty]) entries (by simp) fewer positive
  · next cache found =>
    obtain rfl : (b.index.semanticCache.lookup S q now).1 = cache := by rw [found]
    cases next
    exact h.quiet (.missed q) rfl rfl rfl rfl before id (fun _ _ mem => mem)
      (fun _ => h.readers t (by rw [at_t]; trivial)) (fun _ empty => empty) entries (by simp)
      fewer positive

theorem Sound.compute (h : b.Sound S) (at_t : b.phase t = .missed q)
    (next : b.step S (t, .compute) = some b') : b'.Sound S := by
  simp only [step, at_t, Option.some.injEq] at next
  subst next
  refine h.quiet _ rfl rfl rfl rfl (by simp [at_t, Phase.Writes]) id (fun _ _ mem => mem)
    (fun _ => h.readers t (by rw [at_t]; trivial)) (fun _ empty => empty)
    (fun exact => exact) ?_ h.room h.positive
  rintro q' answer eq
  obtain ⟨rfl, rfl⟩ := Phase.computed.inj eq
  exact ⟨rfl, rfl⟩

theorem Sound.store (h : b.Sound S) {answer : Answer D} (at_t : b.phase t = .computed q answer)
    (next : b.step S (t, .store now) = some b') : b'.Sound S := by
  simp only [step, at_t, Option.some.injEq] at next
  subst next
  refine h.quiet .idle rfl rfl rfl rfl (by simp [at_t, Phase.Writes]) id
    (fun t' other mem => mem_filter.mpr ⟨mem, by simpa using other⟩) False.elim
    (fun _ empty => by simp [endRead, setCache, empty]) ?_ (by simp) ?_ ?_
  · intro exact e mem
    rcases mem_store mem with before | rfl
    · exact exact e before
    · exact h.computed t q answer at_t
  · exact (length_store h.room h.positive).trans_eq maxEntries_store.symm
  · exact h.positive.trans_eq maxEntries_store.symm

/-- The lock is taken alone: no search is under way. -/
theorem Sound.lock (h : b.Sound S) (idle : b.readers = []) (free : b.writer = none)
    (reads : ¬phase.Reads) :
    ({ b.goto t phase with writer := some t } : Backend V D).Sound S where
  readers t' reading := by
    by_cases same : t' = t
    · subst same
      simp only [Backend.goto, update_self] at reading
      exact absurd reading reads
    · simp only [Backend.goto, update_of_ne same] at reading
      exact h.readers t' reading
  writer t' writing := by
    by_cases same : t' = t
    · rw [same]
    · simp only [Backend.goto, update_of_ne same] at writing
      exact absurd writing (h.quietPhase free)
  alone _ _ := idle
  entries _ := h.entries fun t' changing => h.quietPhase free (t := t') (by rw [changing]; trivial)
  computed t' q answer at_t' := by
    by_cases same : t' = t
    · subst same
      simp only [Backend.goto, update_self] at at_t'
      exact absurd (by rw [at_t']; trivial) reads
    · simp only [Backend.goto, update_of_ne same] at at_t'
      exact h.computed t' q answer at_t'
  room := h.room
  positive := h.positive

/-- Who holds the lock alone is the only one, and nobody searches. -/
theorem Sound.holder (h : b.Sound S) (writes : (b.phase t).Writes) (t' : Nat) :
    ¬(b.phase t').Reads ∧ ((b.phase t').Writes → t' = t) := by
  have held := h.writer t writes
  constructor
  · intro reads
    exact h.unchanged reads t writes
  · intro writes'
    exact Option.some.inj ((h.writer t' writes').symm.trans held)

/-- While a task writes no other one is at work, and its own step starts no search. -/
theorem Sound.elsewhere (h : b.Sound S) (writes : (b.phase t).Writes)
    (idle : ¬ phase.Reads ∧ ∀ q answer, phase ≠ .computed q answer) (t' : Nat) :
    ¬ ((b.goto t phase).phase t').Reads ∧
      (∀ q answer, (b.goto t phase).phase t' ≠ .computed q answer) ∧
      (t' ≠ t → ¬ ((b.goto t phase).phase t').Writes) := by
  by_cases same : t' = t
  · subst same
    simp only [Backend.goto, update_self]
    exact ⟨idle.1, idle.2, fun other => absurd rfl other⟩
  · simp only [Backend.goto, update_of_ne same]
    exact ⟨(h.holder writes t').1, fun q answer at_t' =>
      (h.holder writes t').1 (by rw [at_t']; trivial),
      fun _ writing => same ((h.holder writes t').2 writing)⟩

/-- The holder changes the vectors. -/
theorem Sound.change (h : b.Sound S) (writes : (b.phase t).Writes)
    (cache : index.semanticCache = b.index.semanticCache) :
    ({ b.goto t .changed with index := index } : Backend V D).Sound S where
  readers t' reading := absurd reading (h.elsewhere writes ⟨id, by simp⟩ t').1
  writer t' writing := by
    by_cases same : t' = t
    · rw [same]
      exact h.writer t writes
    · exact absurd writing ((h.elsewhere writes ⟨id, by simp⟩ t').2.2 same)
  alone := h.alone
  entries settled := absurd (by simp [Backend.goto]) (settled t)
  computed t' q answer at_t' := absurd at_t' ((h.elsewhere writes ⟨id, by simp⟩ t').2.1 q answer)
  room := by
    rw [cache]
    exact h.room
  positive := by
    rw [cache]
    exact h.positive

/-- The holder lets the lock go, with the cache empty or the vectors as they were. -/
theorem Sound.unlock (h : b.Sound S) (writes : (b.phase t).Writes) {completed changed : Nat}
    (entries : ∀ e ∈ index.semanticCache.entries, e ∈ b.index.semanticCache.entries ∧
      index.contents = b.index.contents ∧ changed = b.changed ∧ b.phase t ≠ .changed)
    (fewer : index.semanticCache.entries.length ≤ b.index.semanticCache.entries.length)
    (max : index.semanticCache.maxEntries = b.index.semanticCache.maxEntries) :
    ({ b.goto t .idle with
      index := index, writer := none, completed := completed, changed := changed } :
        Backend V D).Sound S where
  readers t' reading := absurd reading (h.elsewhere writes ⟨id, by simp⟩ t').1
  writer t' writing := by
    by_cases same : t' = t
    · subst same
      simp only [Backend.goto, update_self] at writing
      exact writing.elim
    · exact absurd writing ((h.elsewhere writes ⟨id, by simp⟩ t').2.2 same)
  alone t' held := by cases held
  entries settled e mem := by
    obtain ⟨before, contents, count, still⟩ := entries e mem
    rw [Exact]
    simp only [contents, count]
    refine h.entries (fun t' changing => ?_) e before
    by_cases same : t' = t
    · exact still (same ▸ changing)
    · refine settled t' ?_
      simp only [Backend.goto, update_of_ne same, changing]
  computed t' q answer at_t' := absurd at_t' ((h.elsewhere writes ⟨id, by simp⟩ t').2.1 q answer)
  room := by
    rw [max]
    exact fewer.trans h.room
  positive := by
    rw [max]
    exact h.positive

theorem Sound.complete (h : b.Sound S) : b.complete.Sound S :=
  h.stay rfl rfl rfl rfl rfl (fun _ mem => mem) le_rfl rfl

theorem Sound.beginSearch (h : b.Sound S) {response : Option (V × String)} {thresholdBits : UInt64}
    {k : Nat} (next : b.step S (t, .beginSearch response thresholdBits k) = some b') :
      b'.Sound S := by
  simp only [step] at next
  split at next
  · next at_t free =>
    split at next
    · next embedding modelVersion _ =>
      cases next
      exact h.quiet _ rfl rfl rfl rfl (by simp [at_t, Phase.Writes]) id
        (fun _ _ mem => mem_cons_of_mem _ mem) (fun _ => mem_cons_self)
        (fun held => absurd free held) (fun exact => exact) (by simp) h.room h.positive
    · cases next
      exact h
  · cases next

theorem Sound.beginInsert (h : b.Sound S) {row : Sql.Columns} {response : Option V}
    (next : b.step S (t, .beginInsert rowKey row response) = some b') : b'.Sound S := by
  simp only [step] at next
  split at next
  · cases next
    exact h.complete
  · next at_t _ _ =>
    split at next
    · cases next
      exact h.complete
    · cases next
      exact h
    · cases next
      exact h.goto (by simp [at_t, Phase.Writes]) id id
  · cases next

theorem Sound.beginDelete (h : b.Sound S) {logged : Bool}
    (next : b.step S (t, .beginDelete rowKey logged) = some b') : b'.Sound S := by
  simp only [step] at next
  split at next
  · next at_t _ =>
    split at next
    · cases next
      exact h.complete
    · split at next
      · cases next
        exact h.goto (by simp [at_t, Phase.Writes]) id id
      · cases next
        exact h
  · cases next

/-- Each step of a client keeps the cache sound. -/
theorem Sound.step {act : Nat × Action V D} (h : b.Sound S) (next : b.step S act = some b') :
    b'.Sound S := by
  obtain ⟨t, act⟩ := act
  cases act with
  | beginSearch response thresholdBits k => exact h.beginSearch next
  | lookup now =>
    cases at_t : b.phase t with
    | searching q => exact h.lookup at_t next
    | _ => simp [Backend.step, at_t] at next
  | compute =>
    cases at_t : b.phase t with
    | missed q => exact h.compute at_t next
    | _ => simp [Backend.step, at_t] at next
  | store now =>
    cases at_t : b.phase t with
    | computed q answer => exact h.store at_t next
    | _ => simp [Backend.step, at_t] at next
  | beginInsert rowKey row response => exact h.beginInsert next
  | beginDelete rowKey logged => exact h.beginDelete next
  | lock =>
    simp only [Backend.step] at next
    split at next
    · next free idle _ =>
      cases next
      exact h.lock idle free id
    · next free idle _ =>
      cases next
      exact h.lock idle free id
    · cases next
  | change =>
    simp only [Backend.step] at next
    split at next
    · next rowKey embedding at_t =>
      have writes : (b.phase t).Writes := by rw [at_t]; trivial
      split at next
      · cases next
        exact h.unlock writes (fun e mem => ⟨mem, rfl, rfl, by simp [at_t]⟩) le_rfl rfl
      · cases next
        exact h.change writes rfl
    · next rowKey rowId at_t =>
      cases next
      exact h.change (by rw [at_t]; trivial) rfl
    · cases next
  | invalidate =>
    simp only [Backend.step] at next
    split at next
    · next at_t =>
      cases next
      exact h.unlock (by rw [at_t]; trivial) (fun e mem => by cases mem) (Nat.zero_le _) rfl
    · cases next
  | configureSemanticCache similarity ttlSecs | dropSemanticCache =>
    simp only [Backend.step] at next
    split at next
    · cases next
      exact h.stay rfl rfl rfl rfl rfl (fun e mem => by cases mem) (Nat.zero_le _) rfl
    · cases next

/-- What is served from the cache comes from an entry that matches and is what a search for the
query of that entry would answer; it is fresh; and the cache is not too large. -/
def Transparent (S : Scoring V D) (fresh : Answer D → Backend V D → Prop) (b : Backend V D) :
    Prop :=
  (∀ t now answer, b.Hits S t now answer → fresh answer b ∧
    ∃ q, b.phase t = .searching q ∧ ∃ e ∈ b.index.semanticCache.entries,
      b.index.semanticCache.Matches S q e ∧ now - e.createdAt < b.index.semanticCache.ttl ∧
        e.results = answer ∧ answer.results =
          executeSemanticMatch S b.index.contents e.queryEmbedding e.thresholdBits e.k) ∧
  b.index.semanticCache.entries.length ≤ b.index.semanticCache.maxEntries

/-- No insert or delete has completed since the answer was computed. -/
def afterAll (answer : Answer D) (b : Backend V D) : Prop := answer.completed = b.completed

/-- No insert or delete that changed the vectors has completed since the answer was computed. -/
def afterChanges (answer : Answer D) (b : Backend V D) : Prop := answer.changed = b.changed

theorem Sound.transparent (h : b.Sound S) : b.Transparent S afterChanges := by
  refine ⟨?_, h.room⟩
  rintro t now answer ⟨q, at_t, hit⟩
  obtain ⟨e, mem, matched, alive, rfl⟩ := lookup_eq_some hit
  have reads : (b.phase t).Reads := by rw [at_t]; trivial
  have settled : ∀ t', b.phase t' ≠ .changed := by
    intro t' changing
    exact h.unchanged reads t' (by rw [changing]; trivial)
  obtain ⟨results, changed⟩ := h.entries settled e mem
  exact ⟨changed, q, at_t, e, mem, matched, alive, rfl, results⟩

/-- In every interleaving of searches, inserts, deletes and changes of the cache, what is served is
exact for its entry and was computed after the last write that changed the vectors. -/
theorem transparent_of_run (S : Scoring V D) (one : D) (index : TableIndex V D) (sidecar : Bool)
    (acts : List (Nat × Action V D)) :
    Run.Throughout (step S) (Transparent S afterChanges) (initial one index sidecar) acts := by
  intro done later b split run
  have any : Run.Along (step S) (fun _ _ => True) (initial one index sidecar) done :=
    Run.along_of_forall _ fun _ _ => trivial
  have sound : b.Sound S := Run.invariant_of_run
    (fun _ _ _ (kept : Backend.Sound S _) _ next => kept.step next)
      (sound_initial one index sidecar)
    any run
  exact sound.transparent

end Backend

/-- Numbers on a line, more similar the nearer they are. -/
def lineScoring : Scoring Nat Nat where
  cosineDistance a b := (a - b) + (b - a)
  cosineSimilarity a b := 100 - ((a - b) + (b - a))
  similarityOf d := 100 - d
  distanceThreshold bits := 100 - bits.toNat
  dim _ := 1
  xxh3 key := key.length.toUInt64

def lineIndex : TableIndex Nat Nat :=
  ⟨Bytes.ascii "body", 1, ⟨fun _ _ _ => [], .new, ∅⟩, ∅, .new 100⟩

/-- A search is stored, a row without a text is inserted, and the search is repeated. -/
def textlessInsert : List (Nat × Action Nat Nat) :=
  [(0, .configureSemanticCache 90 60), (0, .beginSearch (some (5, "model")) 80 10), (0, .lookup 0),
    (0, .compute), (0, .store 0), (1, .beginInsert (Bytes.ascii "row") [] (some 7)),
    (0, .beginSearch (some (5, "model")) 80 10)]

/-- An insert that has nothing to embed completes and leaves the cache as it is. -/
theorem textlessInsert_served : ¬Run.Throughout (Backend.step lineScoring)
    (Backend.Transparent lineScoring Backend.afterAll) (Backend.initial 100 lineIndex true)
    textlessInsert := by
  intro always
  obtain ⟨b, run, answer, hit, completed, now⟩ : ∃ b,
      Run.run (Backend.step lineScoring) (Backend.initial 100 lineIndex true) textlessInsert =
        some b ∧
        ∃ answer, b.Hits lineScoring 0 1 answer ∧ answer.completed = 0 ∧ b.completed = 1 :=
    ⟨_, rfl, _, ⟨_, rfl, rfl⟩, rfl, rfl⟩
  have fresh := ((always textlessInsert [] b (append_nil _) run).1 0 1 answer hit).1
  rw [Backend.afterAll, completed, now] at fresh
  cases fresh

end Runs

end GalaxDb.Ann
