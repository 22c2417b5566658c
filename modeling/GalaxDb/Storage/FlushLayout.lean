import GalaxDb.Storage.ScanMerge
import Mathlib.Data.List.Forall2

/-!
# What a flush writes

Cutting entries into blocks and packing blocks into files loses no entry and keeps
their order, and the block map names the place of every row.
-/

namespace GalaxDb.Flush

open List

variable {config : FlushConfig} {registrations : List ColumnarRegistration}

theorem flatten_splitLoop (current : List Entry) (size : Nat) (entries : List Entry) :
    (splitLoop config registrations current size entries).flatten = current ++ entries := by
  induction entries generalizing current size with
  | nil =>
    rw [splitLoop]
    split
    · rename_i empty
      simp [empty]
    · simp
  | cons e rest ih =>
    rw [splitLoop]
    split
    · simp [ih]
    · simp [ih]

theorem flatten_splitIntoBlocks (entries : List Entry) :
    (splitIntoBlocks config registrations entries).flatten = entries :=
  flatten_splitLoop [] 0 entries

theorem rows_buildBlock (ts : Timestamp) (blockId : Nat) (chunk : List Entry) :
    (buildBlock registrations ts blockId chunk).rows = chunk.map entryToRow := rfl

/-- The row at a place in a list of files. -/
def rowAt (files : List (Nat × SstFile)) (i b r : Nat) : Option SstRow :=
  (files[i]?).bind fun f => SstFile.rowAt f.2 b r

/-- The places of the rows of a block. -/
def places (info : SstBlockInfo) : List (Nat × Nat × Nat) :=
  (List.range info.rowCount).map fun row => (info.sstIndex, info.blockIndex, row)

variable {blockLen : PaxBlock → Nat} {ts : Timestamp}

/-- The blocks collected so far open the next file that is written. -/
theorem current_prefix_packLoop (nid idx : Nat) (current : SstFile) (len : Nat)
    (chunks : List (List Entry)) (h : current ≠ [] ∨ chunks ≠ []) :
    ∃ f rest, (packLoop blockLen config registrations ts nid idx current len chunks).files =
      f :: rest ∧ current <+: f.2 := by
  induction chunks generalizing nid idx current len with
  | nil =>
    have nonempty : current ≠ [] := h.resolve_right (fun h => h rfl)
    exact ⟨(nid, current), [], by simp [packLoop, nonempty], prefix_rfl⟩
  | cons chunk rest ih =>
    simp only [packLoop]
    split
    · exact ⟨_, _, rfl, prefix_append _ _⟩
    · obtain ⟨f, fs, eq, pre⟩ := ih (nid + 1) idx
        (current ++ [buildBlock registrations ts nid chunk])
        (len + blockLen (buildBlock registrations ts nid chunk)) (Or.inl (by simp))
      exact ⟨f, fs, eq, (prefix_append _ _).trans pre⟩

theorem rows_packLoop (nid idx : Nat) (current : SstFile) (len : Nat) (chunks : List (List Entry)) :
    (packLoop blockLen config registrations ts nid idx current len chunks).files.flatMap
      (fun f => SstFile.rows f.2) = SstFile.rows current ++ chunks.flatten.map entryToRow := by
  induction chunks generalizing nid idx current len with
  | nil =>
    by_cases empty : current = []
    · simp [packLoop, empty, SstFile.rows]
    · simp [packLoop, empty]
  | cons chunk rest ih =>
    have extended : SstFile.rows (current ++ [buildBlock registrations ts nid chunk]) =
        SstFile.rows current ++ chunk.map entryToRow := by
      simp [SstFile.rows, rows_buildBlock]
    by_cases full : config.sstSizeBytes ≤ len + blockLen (buildBlock registrations ts nid chunk)
    · simp only [packLoop, full, if_true, flatMap_cons, ih, extended, flatten_cons,
        map_append, append_assoc]
      rfl
    · simp only [packLoop, full, if_false, ih, extended, flatten_cons, map_append,
        append_assoc]

theorem zoned_packLoop (nid idx : Nat) (current : SstFile) (len : Nat)
    (chunks : List (List Entry)) (zoned : ∀ b ∈ current, Engine.Zoned b) :
    ∀ f ∈ (packLoop blockLen config registrations ts nid idx current len chunks).files,
      ∀ b ∈ f.2, Engine.Zoned b := by
  induction chunks generalizing nid idx current len with
  | nil =>
    intro f hf
    by_cases empty : current = []
    · simp [packLoop, empty] at hf
    · simp only [packLoop, empty, if_false, mem_singleton] at hf
      exact hf ▸ zoned
  | cons chunk rest ih =>
    have extended : ∀ b ∈ current ++ [buildBlock registrations ts nid chunk], Engine.Zoned b := by
      intro b hb
      rcases mem_append.mp hb with hb | hb
      · exact zoned b hb
      · exact mem_singleton.mp hb ▸ Engine.zoned_write _ _ _ _
    intro f hf
    simp only [packLoop] at hf
    split at hf
    · rcases mem_cons.mp hf with rfl | hf
      · exact extended
      · exact ih _ _ [] _ (by simp) f hf
    · exact ih _ _ _ _ extended f hf

/-- Files take ids from the counter on, each one its own. -/
theorem ids_packLoop (nid idx : Nat) (current : SstFile) (len : Nat) (chunks : List (List Entry)) :
    let out := packLoop blockLen config registrations ts nid idx current len chunks
    nid ≤ out.nextBlockId ∧ (∀ f ∈ out.files, nid ≤ f.1 ∧ f.1 < out.nextBlockId) ∧
      (out.files.map Prod.fst).Nodup := by
  induction chunks generalizing nid idx current len with
  | nil =>
    by_cases empty : current = []
    · simp [packLoop, empty]
    · simp [packLoop, empty]
  | cons chunk rest ih =>
    by_cases full : config.sstSizeBytes ≤ len + blockLen (buildBlock registrations ts nid chunk)
    · obtain ⟨up, range, nodup⟩ := ih (nid + 2) (idx + 1) [] 0
      simp only [packLoop, full, if_true]
      refine ⟨by omega, ?_, ?_⟩
      · intro f hf
        rcases mem_cons.mp hf with rfl | hf
        · exact ⟨Nat.le_succ nid, up⟩
        · exact ⟨Nat.le_trans (by omega) (range f hf).1, (range f hf).2⟩
      · rw [map_cons, nodup_cons]
        refine ⟨?_, nodup⟩
        intro h
        obtain ⟨f, hf, heq⟩ := mem_map.mp h
        have := range f hf
        omega
    · obtain ⟨up, range, nodup⟩ := ih (nid + 1) idx
        (current ++ [buildBlock registrations ts nid chunk])
        (len + blockLen (buildBlock registrations ts nid chunk))
      simp only [packLoop, full, if_false]
      exact ⟨by omega, fun f hf => ⟨Nat.le_trans (by omega) (range f hf).1, (range f hf).2⟩, nodup⟩

/-- A row is at a place of the files, the first of which has number `idx`. -/
def Placed (files : List (Nat × SstFile)) (idx : Nat) (e : Entry) (p : Nat × Nat × Nat) : Prop :=
  idx ≤ p.1 ∧ rowAt files (p.1 - idx) p.2.1 p.2.2 = some (entryToRow e)

/-- A block at the front file has the rows of its chunk at the places of its info. -/
theorem placed_of_block {f : Nat × SstFile} {files : List (Nat × SstFile)} {idx b : Nat}
    {chunk : List Entry} {block : PaxBlock} (hb : f.2[b]? = some block)
    (hr : block.rows = chunk.map entryToRow) :
    List.Forall₂ (Placed (f :: files) idx) chunk (places ⟨idx, b, chunk.length⟩) := by
  rw [forall₂_iff_get]
  refine ⟨by simp [places], ?_⟩
  intro n h1 h2
  simp [Placed, places, rowAt, SstFile.rowAt, hb, hr, h1]

theorem Placed.cons {files : List (Nat × SstFile)} {idx : Nat} {e : Entry} {p : Nat × Nat × Nat}
    (h : Placed files (idx + 1) e p) (f : Nat × SstFile) : Placed (f :: files) idx e p := by
  refine ⟨Nat.le_of_succ_le h.1, ?_⟩
  obtain ⟨n, hn⟩ := Nat.exists_eq_add_of_le h.1
  have shift : p.1 - idx = n + 1 := by omega
  have place : p.1 - (idx + 1) = n := by omega
  have at_n := h.2
  rw [place] at at_n
  rw [shift, rowAt, getElem?_cons_succ]
  exact at_n

theorem placed_packLoop (nid idx : Nat) (current : SstFile) (len : Nat)
    (chunks : List (List Entry)) :
    let out := packLoop blockLen config registrations ts nid idx current len chunks
    List.Forall₂ (Placed out.files idx) chunks.flatten (out.blockMap.flatMap places) := by
  induction chunks generalizing nid idx current len with
  | nil =>
    by_cases empty : current = []
    · simp [packLoop, empty]
    · simp [packLoop, empty]
  | cons chunk rest ih =>
    have built : (buildBlock registrations ts nid chunk).rows = chunk.map entryToRow := rfl
    have last : (current ++ [buildBlock registrations ts nid chunk])[current.length]? =
        some (buildBlock registrations ts nid chunk) := by simp
    by_cases full : config.sstSizeBytes ≤ len + blockLen (buildBlock registrations ts nid chunk)
    · simp only [packLoop, full, if_true, flatten_cons, flatMap_cons]
      exact rel_append (placed_of_block last built)
        ((ih (nid + 2) (idx + 1) [] 0).imp fun _ _ h => h.cons _)
    · have tail := ih (nid + 1) idx (current ++ [buildBlock registrations ts nid chunk])
        (len + blockLen (buildBlock registrations ts nid chunk))
      obtain ⟨f, fs, eq, pre⟩ : ∃ f fs, (packLoop blockLen config registrations ts (nid + 1) idx
          (current ++ [buildBlock registrations ts nid chunk])
          (len + blockLen (buildBlock registrations ts nid chunk)) rest).files = f :: fs ∧
            current ++ [buildBlock registrations ts nid chunk] <+: f.2 :=
        current_prefix_packLoop _ _ _ _ _ (Or.inl (by simp))
      have inside : f.2[current.length]? = some (buildBlock registrations ts nid chunk) := by
        obtain ⟨more, hmore⟩ := pre
        rw [← hmore, getElem?_append_left (by simp), last]
      simp only [packLoop, full, if_false, flatten_cons, flatMap_cons]
      simp only [eq] at tail ⊢
      exact rel_append (placed_of_block inside built) tail

end GalaxDb.Flush
