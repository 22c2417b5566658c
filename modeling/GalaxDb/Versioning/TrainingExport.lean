import GalaxDb.Lib.Run
import GalaxDb.Sql.RowCodec
import GalaxDb.Versioning.Export

/-!
# The vectors of a training export

An export reads the rows as they were at its tag and takes their vectors from the live index,
by primary key. A row has its own vector as long as its key is not embedded again from another
text, and a row that gets no vector does not inherit one.
-/

namespace GalaxDb.Versioning

open Std Bytes Sql List Option

section Model

variable {S V : Type}

/-- A table with an embedding column, what the model of the sidecar makes of a text, and the
hash of a key that is its row id. -/
structure EmbeddingTable (V : Type) where
  entry : TableEntry
  sourceColumn : Bytes
  embed : Bytes → V
  xxh3 : Bytes → UInt64

/-- The scalar values are those of `project_row_to_field_values`. -/
inductive FieldValue (S V : Type) where
  | scalar (x : S)
  | embedding (v : V)
  | null
  deriving DecidableEq

structure VersionTag where
  name : Bytes
  versionTimestamp : Nat
  forTraining : Bool

namespace EmbeddingTable

/-- The text that a row has to embed. -/
def sourceText (E : EmbeddingTable V) (row : Columns) : Option Bytes :=
  match cell row E.sourceColumn with
  | some (.text s) => some s
  | _ => none

def embedding (E : EmbeddingTable V) (row : Columns) : Option V := (E.sourceText row).map E.embed

end EmbeddingTable

abbrev TableRows := ExtTreeMap Bytes Columns compare

def overlayRow (rows : TableRows) (w : Bytes × Option Columns) : TableRows :=
  match w.2 with
  | some row => rows.insert w.1 row
  | none => rows.erase w.1

/-- The rows at a timestamp: the engine numbers the writes. -/
def rowsAt (writes : List (Bytes × Option Columns)) (ts : Nat) : TableRows :=
  (writes.take ts).foldl overlayRow ∅

/-- The writes to the table in the order of their timestamps, the maps of its vector index that
an export reads, and the tags. -/
structure TrainingDb (V : Type) where
  writes : List (Bytes × Option Columns)
  keyToRowId : ExtTreeMap Bytes UInt64 compare
  vectors : ExtTreeMap UInt64 V compare
  tags : List VersionTag

namespace TrainingDb

def fresh : TrainingDb V := ⟨[], ∅, ∅, []⟩

def latestCommitTs (s : TrainingDb V) : Nat := s.writes.length

def live (s : TrainingDb V) : TableRows := rowsAt s.writes s.latestCommitTs

def written (s : TrainingDb V) (key : Bytes) (row : Option Columns) : TrainingDb V :=
  { s with writes := s.writes ++ [(key, row)] }

/-- The hook embeds the source text, if the sidecar answers with a vector of the right dimension. -/
def onRowInserted (E : EmbeddingTable V) (s : TrainingDb V) (key : Bytes) (row : Columns)
    (answered : Bool) : TrainingDb V :=
  match E.sourceText row with
  | none => s
  | some text =>
    if answered then
      { s with
        vectors := s.vectors.insert (E.xxh3 key) (E.embed text)
        keyToRowId := s.keyToRowId.insert key (E.xxh3 key) }
    else s

/-- The hook forgets the vector once the tombstone is logged. -/
def onRowDeleted (s : TrainingDb V) (key : Bytes) (logged : Bool) : TrainingDb V :=
  match s.keyToRowId[key]? with
  | none => s
  | some rowId =>
    if logged then
      { s with vectors := s.vectors.erase rowId, keyToRowId := s.keyToRowId.erase key }
    else s

/-- The key under which an INSERT is let in. -/
def admitted (E : EmbeddingTable V) (s : TrainingDb V) (row : Columns) : Option Bytes :=
  match buildPrimaryKey E.entry.name E.entry row with
  | .error _ => none
  | .ok key =>
    if (E.entry.columns.find? CatalogColumn.primaryKey).isSome ∧ s.live[key]?.isSome then none
    else some key

/-- INSERT and DELETE with the hook's luck, one write of a commit, which runs no hook, and
CREATE VERSION TAG. -/
inductive Act where
  | insert (row : Columns) (answered : Bool)
  | delete (key : Bytes) (logged : Bool)
  | applied (key : Bytes) (row : Option Columns)
  | createVersionTag (name : Bytes) (forTraining : Bool)

def exec (E : EmbeddingTable V) (s : TrainingDb V) : Act → TrainingDb V
  | .insert row answered =>
    match admitted E s row with
    | none => s
    | some key => onRowInserted E (s.written key (some row)) key row answered
  | .delete key logged =>
    if s.live[key]?.isSome then onRowDeleted (s.written key none) key logged else s
  | .applied key row => s.written key row
  | .createVersionTag name forTraining =>
    if s.tags.any fun t => t.name = name then s
    else { s with tags := s.tags ++ [⟨name, s.latestCommitTs, forTraining⟩] }

def step (E : EmbeddingTable V) (s : TrainingDb V) (a : Act) :
    Option (TrainingDb V) := some (exec E s a)

/-- The vector that an export finds for a key. -/
def keyToVec (s : TrainingDb V) (key : Bytes) : Option V :=
  s.keyToRowId[key]?.bind fun rowId => s.vectors[rowId]?

def embeddingField (s : TrainingDb V) (key : Bytes) : FieldValue S V :=
  match s.keyToVec key with
  | some v => .embedding v
  | none => .null

/-- The rows of the table at a timestamp, each with the vector of its key. -/
def readBlocks (E : EmbeddingTable V) (scalarFields : Columns → List S) (s : TrainingDb V) (ts :
    Nat) :
    List (ExportedRow (FieldValue S V)) :=
  ((rowsAt s.writes ts).toList.filter fun r => (tablePrefix E.entry.name).isPrefixOf r.1).map
    fun r =>
    ⟨r.1, (scalarFields (decodeRow (encodeRow r.2))).map .scalar ++ [s.embeddingField r.1], none⟩

/-- The rows that are written, in the order of their keys; the content hash is taken of them. -/
def trainingDataset (E : EmbeddingTable V) (scalarFields : Columns → List S) (s : TrainingDb V)
    (tag : Bytes) : Except SqlError (List (ExportedRow (FieldValue S V))) :=
  match s.tags.find? fun t => t.name = tag with
  | none => .error (.internal (ascii "unknown version tag: " ++ tag))
  | some t =>
    if t.forTraining = false then
      .error (.internal (ascii "version tag '" ++ tag ++
        ascii "' is not a FOR TRAINING tag; only training tags can be exported as Lance datasets"))
    else
      let rows := readBlocks E scalarFields s t.versionTimestamp
      if rows =
        [] then .error (.internal (ascii "Lance export failed: version has no rows to export"))
      else .ok (rows.mergeSort fun a b => (compare a.primaryKey b.primaryKey).isLE)

/-- The vector is the embedding of the text that the row has at the timestamp, or NULL. -/
def CarriesOwn (E : EmbeddingTable V) (s : TrainingDb V) (ts : Nat)
    (row : ExportedRow (FieldValue S V)) : Prop :=
  row.fields.getLast? = some .null ∨ ∃ cols text, (rowsAt s.writes ts)[row.primaryKey]? =
    some cols ∧
    E.sourceText cols = some text ∧ row.fields.getLast? = some (.embedding (E.embed text))

end TrainingDb

end Model

section Rows

variable {writes later : List (Bytes × Option Columns)} {w : Bytes × Option Columns} {ts : Nat}

/-- What was written up to a timestamp stays as it was. -/
theorem rowsAt_of_prefix (pre : writes <+: later) (past : ts ≤ writes.length) :
    rowsAt later ts = rowsAt writes ts := by
  obtain ⟨more, rfl⟩ := pre
  rw [rowsAt, take_append_of_le_length past]
  rfl

theorem rowsAt_snoc (past : ts ≤ writes.length) : rowsAt (writes ++ [w]) ts = rowsAt writes ts :=
  rowsAt_of_prefix (prefix_append ..) past

theorem rowsAt_written :
    rowsAt (writes ++ [w]) (writes ++ [w]).length = overlayRow (rowsAt writes writes.length) w := by
  simp only [rowsAt, take_length, foldl_append, foldl_cons, foldl_nil]

theorem getElem?_overlayRow (rows : TableRows) (key k : Bytes) (row : Option Columns) :
    (overlayRow rows (key, row))[k]? = if key = k then row else rows[k]? := by
  cases row <;> simp [overlayRow, ExtTreeMap.getElem?_insert, ExtTreeMap.getElem?_erase]

end Rows

namespace TrainingDb

section Vectors

variable {V : Type} {s : TrainingDb V} {key k : Bytes} {rowId : UInt64} {v : V}

/-- An embedding is found under its key, and under every key that is filed at its row id. -/
theorem keyToVec_embedded (s : TrainingDb V) (key k : Bytes) (rowId : UInt64) (v : V) :
    keyToVec { s with
      vectors := s.vectors.insert rowId v, keyToRowId := s.keyToRowId.insert key rowId } k =
      if key = k ∨ s.keyToRowId[k]? = some rowId then some v else s.keyToVec k := by
  by_cases same : key = k
  · simp [keyToVec, ExtTreeMap.getElem?_insert, same]
  · cases filed : s.keyToRowId[k]? with
    | none => simp [keyToVec, ExtTreeMap.getElem?_insert, same, filed]
    | some other =>
      have apart : compare key k ≠ .eq := fun eq => same (Std.compare_eq_iff_eq.mp eq)
      by_cases here : rowId = other
      · simp [keyToVec, ExtTreeMap.getElem?_insert, apart, filed, here]
      · simp [keyToVec, ExtTreeMap.getElem?_insert, apart, filed, here, same, Ne.symm here]

/-- Forgetting leaves no vector that was not there. -/
theorem keyToVec_forgotten (found : keyToVec { s with
      vectors := s.vectors.erase rowId, keyToRowId := s.keyToRowId.erase key } k = some v) :
    s.keyToVec k = some v := by
  obtain ⟨other, filed, stored⟩ := bind_eq_some_iff.mp found
  simp only [ExtTreeMap.getElem?_erase] at filed stored
  refine bind_eq_some_iff.mpr ⟨other, ?_, ?_⟩
  · exact (ite_none_left_eq_some.mp filed).2
  · exact (ite_none_left_eq_some.mp stored).2

end Vectors

section Guards

variable {V : Type}

/-- The rows that training tags show under the key have the same embedding. -/
def FitsTags (E : EmbeddingTable V) (s : TrainingDb V) (key : Bytes) (row : Columns) : Prop :=
  ∀ t ∈ s.tags, t.forTraining = true → ∀ cols ∈ (rowsAt s.writes t.versionTimestamp)[key]?,
    E.embedding cols = E.embedding row

/-- No other key of the index has the hash of this one. -/
def OwnRowId (E : EmbeddingTable V) (s : TrainingDb V) (key : Bytes) : Prop :=
  ∀ r ∈ s.keyToRowId.toList, r.2 = E.xxh3 key → r.1 = key

/-- A vector that is left under the key is that of the row. -/
def FitsLeftover (E : EmbeddingTable V) (s : TrainingDb V) (key : Bytes) (row : Columns) : Prop :=
  ∀ v ∈ s.keyToVec key, E.embedding row = some v

/-- An INSERT that is embedded fits the tags, one that is not fits the vector it finds. -/
def Consistent (E : EmbeddingTable V) (s : TrainingDb V) : Act → Prop
  | .insert row answered => ∀ key ∈ admitted E s row,
    if answered = true ∧ (E.sourceText row).isSome then FitsTags E s key row ∧ OwnRowId E s key
    else FitsLeftover E s key row
  | .applied key (some row) => FitsLeftover E s key row
  | _ => True

/-- No embedding is added or removed. -/
def SameEmbeddings (E : EmbeddingTable V) (s : TrainingDb V) (a : Act) : Prop :=
  (exec E s a).keyToRowId = s.keyToRowId ∧ (exec E s a).vectors = s.vectors

end Guards

section Invariant

variable {V : Type} {E : EmbeddingTable V} {s : TrainingDb V}

/-- Rows that a training tag shows, or would show now. -/
def Shown (s : TrainingDb V) (key : Bytes) (cols : Columns) : Prop :=
  s.live[key]? = some cols ∨
    ∃ t ∈ s.tags, t.forTraining = true ∧ (rowsAt s.writes t.versionTimestamp)[key]? = some cols

structure Sound (E : EmbeddingTable V) (s : TrainingDb V) : Prop where
  filed : ∀ key rowId, s.keyToRowId[key]? = some rowId → rowId = E.xxh3 key
  past : ∀ t ∈ s.tags, t.versionTimestamp ≤ s.latestCommitTs
  own : ∀ key cols, Shown s key cols → ∀ v, s.keyToVec key = some v → E.embedding cols = some v

theorem sound_fresh (E : EmbeddingTable V) : Sound E fresh where
  filed key rowId found := by simp [fresh] at found
  past t there := by simp [fresh] at there
  own key cols _ v found := by simp [fresh, keyToVec] at found

variable {row : Option Columns} {key : Bytes}

/-- A write shows its row, and under other keys and to the tags what was shown before. -/
theorem Sound.shown_written (h : Sound E s) {k : Bytes} {cols : Columns}
    (shown : Shown (s.written key row) k cols) :
    (key = k ∧ row = some cols) ∨ (key ≠ k ∧ Shown s k cols) ∨
      ∃ t ∈ s.tags, t.forTraining = true ∧
        (rowsAt s.writes t.versionTimestamp)[k]? = some cols := by
  rcases shown with now | ⟨t, tagged, training, then_⟩
  · rw [live, latestCommitTs, written, rowsAt_written, getElem?_overlayRow] at now
    by_cases same : key = k
    · rw [if_pos same] at now
      exact .inl ⟨same, now⟩
    · rw [if_neg same] at now
      exact .inr (.inl ⟨same, .inl now⟩)
  · rw [written, rowsAt_snoc (h.past t tagged)] at then_
    exact .inr (.inr ⟨t, tagged, training, then_⟩)

theorem Sound.past_written (h : Sound E s) (key : Bytes) (row : Option Columns) :
    ∀ t ∈ s.tags, t.versionTimestamp ≤ (s.written key row).latestCommitTs := by
  intro t tagged
  have before := h.past t tagged
  simp only [latestCommitTs, written, length_append, length_singleton] at before ⊢
  omega

theorem Sound.unhooked (h : Sound E s) (fits : ∀ r ∈ row, FitsLeftover E s key r) :
    Sound E (s.written key row) where
  filed := h.filed
  past := h.past_written key row
  own k cols shown v found := by
    rcases h.shown_written shown with ⟨rfl, rfl⟩ | ⟨-, before⟩ | tagged
    · exact fits cols rfl v found
    · exact h.own k cols before v found
    · exact h.own k cols (.inr tagged) v found

theorem Sound.embedded (h : Sound E s) {row : Columns} {text : Bytes}
    (source : E.sourceText row = some text) (fits : FitsTags E s key row)
    (alone : OwnRowId E s key) :
    Sound E (onRowInserted E (s.written key (some row)) key row true) := by
  have embedded : E.embedding row = some (E.embed text) := by
    rw [EmbeddingTable.embedding, source, map_some]
  simp only [onRowInserted, source, if_true]
  constructor
  case filed =>
    intro k rowId found
    simp only [written, ExtTreeMap.getElem?_insert, Std.compare_eq_iff_eq] at found
    split_ifs at found with same
    · rw [← same]
      exact (some.inj found).symm
    · exact h.filed k rowId found
  case past => exact h.past_written key (some row)
  case own =>
    intro k cols shown v found
    have seen := h.shown_written shown
    rw [keyToVec_embedded] at found
    by_cases same : key = k
    · subst same
      obtain rfl : E.embed text = v := by simpa using found
      rcases seen with ⟨-, here⟩ | ⟨other, -⟩ | ⟨t, tagged, training, before⟩
      · rw [← some.inj here, embedded]
      · exact absurd rfl other
      · rw [fits t tagged training cols before, embedded]
    · have elsewhere : ¬ (key = k ∨ s.keyToRowId[k]? = some (E.xxh3 key)) := by
        rintro (eq | filed)
        · exact same eq
        · exact same (alone (k, _) (ExtTreeMap.mem_toList_iff_getElem?_eq_some.mpr filed) rfl).symm
      replace found : s.keyToVec k = some v := (if_neg elsewhere).symm.trans found
      rcases seen with ⟨eq, -⟩ | ⟨-, before⟩ | tagged
      · exact absurd eq same
      · exact h.own k cols before v found
      · exact h.own k cols (.inr tagged) v found

theorem Sound.forgotten (h : Sound E s) (key : Bytes) (logged : Bool) :
    Sound E (onRowDeleted (s.written key none) key logged) := by
  have erased : Sound E (s.written key none) := h.unhooked (by simp)
  rw [onRowDeleted]
  split
  · exact erased
  split
  · constructor
    case filed =>
      intro k rowId found
      simp only [ExtTreeMap.getElem?_erase] at found
      exact erased.filed k rowId (ite_none_left_eq_some.mp found).2
    case past => exact erased.past
    case own => exact fun k cols shown v found =>
      erased.own k cols shown v (keyToVec_forgotten found)
  · exact erased

/-- One step: rows that are shown have their own vectors. -/
theorem Sound.exec (h : Sound E s) {a : Act} (consistent : Consistent E s a) :
    Sound E (exec E s a) := by
  cases a with
  | insert row answered =>
    rw [TrainingDb.exec]
    split
    · exact h
    · rename_i key admitted
      have fits := consistent key admitted
      by_cases embeds : answered = true ∧ (E.sourceText row).isSome
      · rw [if_pos embeds] at fits
        obtain ⟨rfl, some_text⟩ := embeds
        obtain ⟨text, source⟩ := isSome_iff_exists.mp some_text
        exact h.embedded source fits.1 fits.2
      · rw [if_neg embeds] at fits
        have kept : onRowInserted E (s.written key (some row)) key row answered =
            s.written key (some row) := by
          rw [onRowInserted]
          split
          · rfl
          · rename_i text source
            rw [if_neg fun yes => embeds ⟨yes, by rw [source]; rfl⟩]
        rw [kept]
        exact h.unhooked (by simpa using fits)
  | delete key logged =>
    rw [TrainingDb.exec]
    split
    · exact h.forgotten key logged
    · exact h
  | applied key row =>
    cases row with
    | none => exact h.unhooked (by simp)
    | some row =>
      have fits : FitsLeftover E s key row := consistent
      exact h.unhooked (by simpa using fits)
  | createVersionTag name forTraining =>
    rw [TrainingDb.exec]
    split
    · exact h
    · constructor
      case filed => exact h.filed
      case past =>
        intro t there
        rcases mem_append.mp there with before | here
        · exact h.past t before
        · obtain rfl := mem_singleton.mp here
          exact Nat.le_refl _
      case own =>
        intro key cols shown
        apply h.own key cols
        rcases shown with now | ⟨t, tagged, training, then_⟩
        · exact .inl now
        · rcases mem_append.mp tagged with before | here
          · exact .inr ⟨t, before, training, then_⟩
          · obtain rfl := mem_singleton.mp here
            exact .inl then_

end Invariant

section Exports

variable {S V : Type} {E : EmbeddingTable V} {scalarFields : Columns → List S} {s s' : TrainingDb V}

theorem Sound.carriesOwn (h : Sound E s) {t : VersionTag} (tagged : t ∈ s.tags)
    (training : t.forTraining = true)
    {row : ExportedRow (FieldValue S V)}
    (there : row ∈ readBlocks E scalarFields s t.versionTimestamp) :
    CarriesOwn E s t.versionTimestamp row := by
  obtain ⟨⟨key, cols⟩, listed, rfl⟩ := mem_map.mp there
  have stored := ExtTreeMap.mem_toList_iff_getElem?_eq_some.mp (mem_filter.mp listed).1
  cases found : s.keyToVec key with
  | none => exact .inl (by simp [embeddingField, found])
  | some v =>
    have own := h.own key cols (.inr ⟨t, tagged, training, stored⟩) v found
    obtain ⟨text, source, rfl⟩ := map_eq_some_iff.mp own
    exact .inr ⟨cols, text, stored, source, by simp [embeddingField, found]⟩

variable {rows : List (ExportedRow (FieldValue S V))} {tag : Bytes}

theorem trainingDataset_ok (exported : trainingDataset E scalarFields s tag = .ok rows) :
    ∃ t, s.tags.find? (fun t => t.name = tag) = some t ∧ t.forTraining = true ∧
      rows.Perm (readBlocks E scalarFields s t.versionTimestamp) := by
  rw [trainingDataset] at exported
  split at exported
  · cases exported
  · rename_i t found
    simp only [] at exported
    split_ifs at exported with plain
    obtain rfl := Except.ok.inj exported
    exact ⟨t, found, by simpa using plain, mergeSort_perm ..⟩

/-- Writes and tags are only added. -/
def Extends (s s' : TrainingDb V) : Prop := s.writes <+: s'.writes ∧ s.tags <+: s'.tags

theorem extends_onRowInserted (key : Bytes) (row : Columns) (answered : Bool) :
    Extends s (onRowInserted E s key row answered) := by
  rw [onRowInserted]
  split
  · exact ⟨prefix_rfl, prefix_rfl⟩
  split <;> exact ⟨prefix_rfl, prefix_rfl⟩

theorem extends_onRowDeleted (key : Bytes) (logged : Bool) :
    Extends s (onRowDeleted s key logged) := by
  rw [onRowDeleted]
  split
  · exact ⟨prefix_rfl, prefix_rfl⟩
  split <;> exact ⟨prefix_rfl, prefix_rfl⟩

theorem extends_written (key : Bytes) (row : Option Columns) : Extends s (s.written key row) :=
  ⟨prefix_append .., prefix_rfl⟩

theorem Extends.trans {s1 s2 s3 : TrainingDb V} (h : Extends s1 s2) (h' : Extends s2 s3) :
    Extends s1 s3 := ⟨h.1.trans h'.1, h.2.trans h'.2⟩

theorem extends_exec (a : Act) : Extends s (exec E s a) := by
  cases a with
  | insert row answered =>
    rw [exec]
    split
    · exact ⟨prefix_rfl, prefix_rfl⟩
    · exact (extends_written ..).trans (extends_onRowInserted ..)
  | delete key logged =>
    rw [exec]
    split
    · exact (extends_written ..).trans (extends_onRowDeleted ..)
    · exact ⟨prefix_rfl, prefix_rfl⟩
  | applied key row => exact extends_written key row
  | createVersionTag name forTraining =>
    rw [exec]
    split
    · exact ⟨prefix_rfl, prefix_rfl⟩
    · exact ⟨prefix_rfl, prefix_append ..⟩

/-- A tag lies in the past. -/
theorem past_exec (past : ∀ t ∈ s.tags, t.versionTimestamp ≤ s.latestCommitTs) (a : Act) :
    ∀ t ∈ (exec E s a).tags, t.versionTimestamp ≤ (exec E s a).latestCommitTs := by
  have grown : s.latestCommitTs ≤ (exec E s a).latestCommitTs :=
    (extends_exec a).1.length_le
  have tags : ∀ t ∈ (exec E s a).tags, t ∈ s.tags ∨ t.versionTimestamp = s.latestCommitTs := by
    intro t there
    cases a with
    | insert row answered =>
      left
      rw [exec] at there
      split at there
      · exact there
      · rw [onRowInserted] at there
        split at there
        · exact there
        split at there <;> exact there
    | delete key logged =>
      left
      rw [exec] at there
      split at there
      · rw [onRowDeleted] at there
        split at there
        · exact there
        split at there <;> exact there
      · exact there
    | applied key row => exact .inl there
    | createVersionTag name forTraining =>
      rw [exec] at there
      split at there
      · exact .inl there
      · rcases mem_append.mp there with before | here
        · exact .inl before
        · exact .inr (by rw [mem_singleton.mp here])
  intro t there
  rcases tags t there with before | now
  · exact (past t before).trans grown
  · exact now.le.trans grown

/-- The rows of a tag and the vectors of the index make the export. -/
theorem trainingDataset_congr (past : ∀ t ∈ s.tags, t.versionTimestamp ≤ s.latestCommitTs)
    (later : Extends s s') (vectors : s'.keyToRowId = s.keyToRowId ∧ s'.vectors = s.vectors)
    (exported : trainingDataset E scalarFields s tag = .ok rows) :
    trainingDataset E scalarFields s' tag = .ok rows := by
  obtain ⟨t, found, -, -⟩ := trainingDataset_ok exported
  have found' : s'.tags.find? (fun t => t.name = tag) = some t := by
    obtain ⟨more, eq⟩ := later.2
    rw [← eq, find?_append, found, some_or]
  have fields : ∀ key, (s'.embeddingField key : FieldValue S V) = s.embeddingField key := by
    intro key
    simp only [embeddingField, keyToVec, vectors.1, vectors.2]
  have blocks : readBlocks E scalarFields s' t.versionTimestamp =
      readBlocks E scalarFields s t.versionTimestamp := by
    simp only [readBlocks, rowsAt_of_prefix later.1 (past t (mem_of_find?_eq_some found)), fields]
  simpa only [trainingDataset, found, found', blocks] using exported

/-- In every run whose inserts are consistent with the tags, an export gives each row its own
vector or NULL. In any run, an export gives the same rows again as long as no embedding is added
or removed. -/
theorem training_vectors_of_run (E : EmbeddingTable V) (scalarFields : Columns → List S)
    (acts : List Act) (s : TrainingDb V) (reached : Run.run (step E) fresh acts = some s)
    (tag : Bytes) (rows : List (ExportedRow (FieldValue S V)))
    (exported : trainingDataset E scalarFields s tag = .ok rows) :
    (Run.Along (step E) (Consistent E) fresh acts →
      ∃ t ∈ s.tags, t.name = tag ∧ ∀ row ∈ rows, CarriesOwn E s t.versionTimestamp row) ∧
    ∀ (later : List Act) (s' : TrainingDb V), Run.Along (step E) (SameEmbeddings E) s later →
      Run.run (step E) s later = some s' → trainingDataset E scalarFields s' tag = .ok rows := by
  constructor
  · intro consistent
    have sound : Sound E s := Run.invariant_of_run (fun s a s' h guard next =>
      some.inj next ▸ h.exec guard) (sound_fresh E) consistent reached
    obtain ⟨t, found, training, same⟩ := trainingDataset_ok exported
    have tagged := mem_of_find?_eq_some found
    refine ⟨t, tagged, by simpa using find?_some found, ?_⟩
    intro row there
    exact sound.carriesOwn tagged training (same.subset there)
  · intro later s' quiet reached'
    have always : ∀ (acts : List Act) (s : TrainingDb V),
        Run.Along (step E) (fun _ _ => True) s acts :=
      fun acts s => Run.along_of_forall (P := fun _ => True) s fun _ _ => trivial
    have past : ∀ t ∈ s.tags, t.versionTimestamp ≤ s.latestCommitTs :=
      Run.invariant_of_run (fun s a s' h _ next => some.inj next ▸ past_exec h a)
        (by simp [fresh]) (always acts fresh) reached
    have preserved : ∀ (s1 : TrainingDb V) (a : Act) (s2 : TrainingDb V),
        (Extends s s1 ∧ s1.keyToRowId = s.keyToRowId ∧ s1.vectors = s.vectors) →
        SameEmbeddings E s1 a → step E s1 a = some s2 →
        Extends s s2 ∧ s2.keyToRowId = s.keyToRowId ∧ s2.vectors = s.vectors := by
      intro s1 a s2 h same next
      obtain rfl := some.inj next
      exact ⟨h.1.trans (extends_exec a), same.1.trans h.2.1, same.2.trans h.2.2⟩
    have kept := Run.invariant_of_run preserved ⟨⟨prefix_rfl, prefix_rfl⟩, rfl, rfl⟩ quiet reached'
    exact trainingDataset_congr past kept.1 kept.2 exported

end Exports

/-- Documents with a text to embed; the embedding is the length of the text. -/
def sampleDocs : EmbeddingTable Nat where
  entry := ⟨ascii "docs", [⟨ascii "id", true, false⟩, ⟨ascii "body", false, true⟩], false⟩
  sourceColumn := ascii "body"
  embed := List.length
  xxh3 key := key.foldl (fun h b => 31 * h + b.toUInt64) 7

def sampleDoc (id : Int) (body : String) : Columns :=
  [(ascii "id", .integer id), (ascii "body", .text (ascii body))]

/-- A row is tagged and deleted, and its key comes back with this text. -/
def reinserted (body : String) : List Act :=
  [.insert (sampleDoc 1 "cats") true, .createVersionTag (ascii "v1") true,
    .delete (ascii "docs:1") true, .insert (sampleDoc 1 body) true]

instance (E : EmbeddingTable Nat) (s : TrainingDb Nat) (a : Act) :
    Decidable (Consistent E s a) := by
  unfold Consistent
  split
  · unfold FitsTags OwnRowId FitsLeftover
    infer_instance
  · unfold FitsLeftover
    infer_instance
  · infer_instance

/-- Keys and fields of an export, without the scalar columns. -/
def exportedFields (s : TrainingDb Nat) (tag : String) :
    Option (List (Bytes × List (FieldValue Unit Nat))) :=
  (trainingDataset sampleDocs (fun _ => []) s (ascii tag)).toOption.map fun rows =>
    rows.map fun r => (r.primaryKey, r.fields)

theorem exists_export {s : TrainingDb Nat} {tag : String}
    {fields : List (Bytes × List (FieldValue Unit Nat))}
    (shown : exportedFields s tag = some fields) :
    ∃ rows, trainingDataset sampleDocs (fun _ => []) s (ascii tag) = .ok rows ∧
      rows.map (fun r => (r.primaryKey, r.fields)) = fields := by
  obtain ⟨rows, exported, rfl⟩ := map_eq_some_iff.mp shown
  cases result : trainingDataset sampleDocs (fun _ => ([] : List Unit)) s (ascii tag) with
  | error e => simp [result, Except.toOption] at exported
  | ok rows' =>
    obtain rfl : rows' = rows := by simpa [result, Except.toOption] using exported
    exact ⟨rows', rfl, rfl⟩

/-- The new text has the same embedding. -/
theorem training_vectors_of_sample_run : ∃ s rows,
    Run.run (step sampleDocs) fresh (reinserted "dogs") = some s ∧
      trainingDataset sampleDocs (fun _ => ([] : List Unit)) s (ascii "v1") = .ok rows ∧
      ∃ t ∈ s.tags, t.name = ascii "v1" ∧
        ∀ row ∈ rows, CarriesOwn sampleDocs s t.versionTimestamp row := by
  obtain ⟨s, reached⟩ : ∃ s, Run.run (step sampleDocs) fresh (reinserted "dogs") = some s :=
    isSome_iff_exists.mp (by decide +kernel)
  have shown : ∀ s ∈ Run.run (step sampleDocs) fresh (reinserted "dogs"),
      exportedFields s "v1" = some [(ascii "docs:1", [.embedding 4])] := by decide +kernel
  obtain ⟨rows, exported, -⟩ := exists_export (shown s reached)
  exact ⟨s, rows, reached, exported, (training_vectors_of_run sampleDocs (fun _ => []) _ s reached
    (ascii "v1") rows exported).1 (by decide +kernel)⟩

/-- The row of the tag is exported with the vector of the text that came later. -/
theorem reinserted_key_gives_its_vector_to_tag :
    ¬ ∀ (acts : List Act) (s : TrainingDb Nat), Run.run (step sampleDocs) fresh acts = some s →
      ∀ (tag : Bytes) (rows : List (ExportedRow (FieldValue Unit Nat))),
        trainingDataset sampleDocs (fun _ => []) s tag = .ok rows →
        ∃ t ∈ s.tags, t.name = tag ∧
          ∀ row ∈ rows, CarriesOwn sampleDocs s t.versionTimestamp row := by
  intro claim
  obtain ⟨s, reached⟩ : ∃ s, Run.run (step sampleDocs) fresh (reinserted "tigers") = some s :=
    isSome_iff_exists.mp (by decide +kernel)
  have facts : ∀ s ∈ Run.run (step sampleDocs) fresh (reinserted "tigers"),
      exportedFields s "v1" = some [(ascii "docs:1", [.embedding 6])] ∧
        ∀ t ∈ s.tags, (rowsAt s.writes t.versionTimestamp)[ascii "docs:1"]?.bind
          sampleDocs.embedding = some 4 := by
    decide +kernel
  obtain ⟨shown, own⟩ := facts s reached
  obtain ⟨rows, exported, fields⟩ := exists_export shown
  obtain ⟨t, tagged, -, carries⟩ := claim _ s reached (ascii "v1") rows exported
  obtain ⟨row, there, row_fields⟩ : ∃ row ∈ rows, (row.primaryKey, row.fields) =
      (ascii "docs:1", [(.embedding 6 : FieldValue Unit Nat)]) :=
    mem_map.mp (fields ▸ mem_singleton_self _)
  obtain ⟨key, vector⟩ := Prod.mk.inj row_fields
  rcases carries row there with null | ⟨cols, text, stored, source, same⟩
  · simp [vector] at null
  · have here := own t tagged
    rw [← key, stored, bind_some, EmbeddingTable.embedding, source] at here
    simp only [vector, getLast?_singleton, some.injEq, FieldValue.embedding.injEq] at same
    rw [map_some, ← same] at here
    cases here

end TrainingDb

end GalaxDb.Versioning
