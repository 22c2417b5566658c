import GalaxDb.Lib.Collect
import GalaxDb.Storage.Maintenance
import GalaxDb.Storage.PaxRawRead
import GalaxDb.Storage.SstFooter

/-!
# The bytes of flushed files

A flush encodes its blocks one after the other into the data of a file and notes where each
of them starts; the index and the footer follow. Lengths and counts of blocks are 32 bits
wide. Opened by its footer, such a file gives back its blocks, and every entry is read at
the place that the block map assigns to it.
-/

namespace GalaxDb.Flush

open SstBlockIndex List Option

/-- PAX blocks as bytes: writing, reading whole blocks and reading one row of the value
column. -/
structure PaxFormat where
  encode : PaxBlock → Option Bytes
  decode : Bytes → Option (List SstRow)
  readValue : Bytes → Nat → Option Bytes

/-- The bytes are read back, and hold an offset of four bytes for every row. -/
structure PaxFormat.RoundTrips (pax : PaxFormat) (block : PaxBlock) (bytes : Bytes) : Prop where
  decode : pax.decode bytes = some block.rows
  readValue : ∀ (row : Nat) (r : SstRow), block.rows[row]? = some r →
    pax.readValue bytes row = some r.value
  offsets : 4 * block.rows.length < bytes.length

structure WrittenFile where
  path : Nat
  data : Bytes
  deriving DecidableEq

/-- `FlushResult`, with what is written under the paths. -/
structure FlushOutput where
  files : List WrittenFile
  blockIds : List Nat
  blockMap : List SstBlockInfo
  nextBlockId : Nat
  deriving DecidableEq

section Write

variable (pax : PaxFormat) (config : FlushConfig) (registrations : List ColumnarRegistration)
  (commitTimestamp : Timestamp)

def addBlock (index : SstBlockIndex) (fileOffset blockLen : Nat) : SstBlockIndex :=
  index ++ [⟨fileOffset, blockLen⟩]

/-- Appends index and footer. -/
def closeFile (path : Nat) (data : Bytes) (index : SstBlockIndex) : WrittenFile :=
  ⟨path, data ++ index.serializeWithFooter data.length⟩

/-- `data`, `index` and `blockCount` are those of the file under construction. -/
def writeLoop : Nat → Nat → Bytes → SstBlockIndex → Nat → List (List Entry) → Option FlushOutput
  | nextBlockId, _, data, index, _, [] =>
    if data = [] then some ⟨[], [], [], nextBlockId⟩
    else some ⟨[closeFile nextBlockId data index], [], [], nextBlockId + 1⟩
  | nextBlockId, sstIndex, data, index, blockCount, chunk :: rest =>
    (pax.encode (buildBlock registrations commitTimestamp nextBlockId chunk)).bind fun bytes =>
      let info := SstBlockInfo.mk sstIndex blockCount chunk.length
      let index := addBlock index data.length (bytes.length % 2 ^ 32)
      let data := data ++ bytes
      if config.sstSizeBytes ≤ data.length then
        (writeLoop (nextBlockId + 2) (sstIndex + 1) [] [] 0 rest).map fun out =>
          ⟨closeFile (nextBlockId + 1) data index :: out.files, nextBlockId :: out.blockIds,
            info :: out.blockMap, out.nextBlockId⟩
      else
        (writeLoop (nextBlockId + 1) sstIndex data index ((blockCount + 1) % 2 ^ 32) rest).map
          fun out => ⟨out.files, nextBlockId :: out.blockIds, info :: out.blockMap, out.nextBlockId⟩

/-- `flush_memtable_inner`, down to the bytes. -/
def writeMemtable (nextBlockId : Nat) (memtable : Memtable) : Option FlushOutput :=
  writeLoop pax config registrations commitTimestamp nextBlockId 0 [] [] 0
    (splitIntoBlocks config registrations memtable.iterAll)

end Write

/-- What a registry keeps for a file: its index, or the whole file as one block. -/
def registeredIndex (data : Bytes) : Option SstBlockIndex :=
  match fromFileData data with
  | some (.ok index) => some index
  | some (.error e) => if e.isFormat then none else some (wholeFile data)
  | none => none

def readBlock (data : Bytes) (entry : BlockIndexEntry) : Option Bytes :=
  if entry.fileOffset + entry.blockLen ≤ data.length then
    some (slice data entry.fileOffset (entry.fileOffset + entry.blockLen))
  else none

/-- The blocks that the index of a file lists. -/
def fileBlocks (data : Bytes) : Option (List Bytes) :=
  match fromFileData data with
  | some (.ok index) => index.mapM (readBlock data)
  | _ => none

/-- A row number in the index has 32 bits. -/
def artLocations (sstId : Nat) (blockMap : List SstBlockInfo) : List RowLocation :=
  (Engine.flushLocations sstId blockMap).map fun
    | .sst id block row => .sst id block (row % 2 ^ 32)
    | location => location

/-- `read_value`, where the files of the flush are registered from `sstId` on. -/
def readBack (pax : PaxFormat) (sstId : Nat) (files : List WrittenFile) : RowLocation → Option Bytes
  | .sst id block row =>
    if id < sstId then none
    else (files[id - sstId]?).bind fun file =>
      (registeredIndex file.data).bind fun index =>
        (index.getBlock block).bind fun entry =>
          (readBlock file.data entry).bind fun bytes => pax.readValue bytes row
  | _ => none

section Cuts

variable {config : FlushConfig} {registrations : List ColumnarRegistration}

/-- All entries belong to the table of the first one. -/
def OneTable (registrations : List ColumnarRegistration) (chunk : List Entry) : Prop :=
  ∀ e ∈ chunk, ∀ e' ∈ chunk, regOf registrations e.1 = regOf registrations e'.1

/-- The invariant of the cut: the open block is of one table, and the next entry joins it only
if it belongs there. -/
theorem oneTable_splitLoop (current : List Entry) (size : Nat) (entries : List Entry)
    (one : OneTable registrations current)
    (joins : ∀ e ∈ entries.head?, ∀ first ∈ current.head?,
      regOf registrations e.1 = regOf registrations first.1) :
    ∀ chunk ∈ splitLoop config registrations current size entries,
      chunk ≠ [] ∧ OneTable registrations chunk := by
  induction entries generalizing current size with
  | nil =>
    intro chunk member
    rw [splitLoop] at member
    split at member
    · cases member
    · rename_i some
      rw [mem_singleton.mp member]
      exact ⟨some, one⟩
  | cons e rest ih =>
    have same : ∀ x ∈ current ++ [e], regOf registrations x.1 = regOf registrations e.1 := by
      intro x member
      rcases mem_append.mp member with member | member
      · cases current with
        | nil => cases member
        | cons first tail =>
          rw [joins e rfl first rfl]
          exact one x member first mem_cons_self
      · rw [mem_singleton.mp member]
    have joined : OneTable registrations (current ++ [e]) :=
      fun x member y member' => (same x member).trans (same y member').symm
    intro chunk member
    rw [splitLoop] at member
    split at member
    · rcases mem_cons.mp member with rfl | member
      · exact ⟨by simp, joined⟩
      · exact ih [] 0 (by simp [OneTable]) (by simp) chunk member
    · rename_i kept
      refine ih (current ++ [e]) _ joined ?_ chunk member
      intro next head first firstHead
      obtain ⟨rest', rfl⟩ := head?_eq_some_iff.mp head
      have stays : ¬ nextCrossesTable registrations ((current ++ [e]).headD e).1 (next :: rest') =
          true := fun crosses => kept ⟨.inr (.inr crosses), by simp⟩
      rw [headD_eq_head?_getD, firstHead] at stays
      simpa [nextCrossesTable] using stays

theorem oneTable_splitIntoBlocks (entries : List Entry) :
    ∀ chunk ∈ splitIntoBlocks config registrations entries,
      chunk ≠ [] ∧ OneTable registrations chunk :=
  oneTable_splitLoop [] 0 entries (by simp [OneTable]) (by simp)

end Cuts

/-- The index of blocks that stand one behind the other. -/
def indexOf : Nat → List Bytes → SstBlockIndex
  | _, [] => []
  | start, bytes :: rest => ⟨start, bytes.length % 2 ^ 32⟩ :: indexOf (start + bytes.length) rest

def fileImage (blocks : List Bytes) : Bytes :=
  blocks.flatten ++ (indexOf 0 blocks).serializeWithFooter blocks.flatten.length

theorem length_indexOf (start : Nat) (blocks : List Bytes) :
    (indexOf start blocks).length = blocks.length := by
  induction blocks generalizing start with
  | nil => rfl
  | cons bytes rest ih => rw [indexOf, length_cons, ih, length_cons]

theorem indexOf_append (start : Nat) (blocks : List Bytes) (bytes : Bytes) :
    indexOf start (blocks ++ [bytes]) =
      addBlock (indexOf start blocks) (start + blocks.flatten.length) (bytes.length % 2 ^ 32) := by
  induction blocks generalizing start with
  | nil => simp [indexOf, addBlock]
  | cons first rest ih =>
    rw [cons_append, indexOf, ih, indexOf, addBlock, addBlock, flatten_cons,
      length_append, Nat.add_assoc]
    rfl

variable {blocks : List Bytes}

theorem indexOf_fits {start bound : Nat} (small : start + blocks.flatten.length < bound) :
    ∀ entry ∈ indexOf start blocks, entry.fileOffset < bound ∧ entry.blockLen < 2 ^ 32 := by
  induction blocks generalizing start with
  | nil => exact fun _ member => nomatch member
  | cons bytes rest ih =>
    rw [flatten_cons, length_append] at small
    intro entry member
    rcases mem_cons.mp member with rfl | member
    · exact ⟨by simp only; omega, Nat.mod_lt _ (by decide)⟩
    · exact ih (by omega) entry member

/-- The count in the footer is the number of entries modulo 2^32, and that many are read. -/
theorem fromFileData_fileImage (small : (fileImage blocks).length < 2 ^ 64) :
    fromFileData (fileImage blocks) =
      some (.ok ((indexOf 0 blocks).take (blocks.length % 2 ^ 32))) := by
  generalize body : blocks.flatten = data at *
  have total : (fileImage blocks).length = data.length + 4 + 12 * blocks.length + 18 := by
    simp only [fileImage, serializeWithFooter, body, length_append, Bytes.toLe_length,
      length_entries, length_indexOf]
    omega
  have bound : data.length < 2 ^ 64 := by omega
  have fits := indexOf_fits (show 0 + blocks.flatten.length < 2 ^ 64 by rw [body]; omega)
  have kept : ((indexOf 0 blocks).take (blocks.length % 2 ^ 32)).length =
      blocks.length % 2 ^ 32 := by
    rw [length_take, length_indexOf]
    exact Nat.min_eq_left (Nat.mod_le ..)
  have split : fileImage blocks = (data ++ Bytes.toLe 4 blocks.length) ++
      ((indexOf 0 blocks).take (blocks.length % 2 ^ 32)).flatMap serializeEntry ++
        (((indexOf 0 blocks).drop (blocks.length % 2 ^ 32)).flatMap serializeEntry ++
          (Bytes.toLe 8 data.length ++ Bytes.toLe 4 blocks.length ++ Bytes.toLe 2 currentWrite ++
            Bytes.toLe 4 footerMagicV2)) := by
    conv_lhs => rw [fileImage, serializeWithFooter, length_indexOf, body,
      ← take_append_drop (blocks.length % 2 ^ 32) (indexOf 0 blocks)]
    rw [flatMap_append]
    simp only [append_assoc]
  have footer : parseFooter (fileImage blocks) =
      .ok (data.length % 2 ^ 64, blocks.length % 2 ^ 32, footerSizeV2) := by
    rw [fileImage, body, parseFooter_append, length_indexOf]
  have start : (data ++ Bytes.toLe 4 blocks.length).length = data.length + 4 := by simp
  have entries := @readEntries_append (data ++ Bytes.toLe 4 blocks.length)
    (((indexOf 0 blocks).drop (blocks.length % 2 ^ 32)).flatMap serializeEntry ++
      (Bytes.toLe 8 data.length ++ Bytes.toLe 4 blocks.length ++ Bytes.toLe 2 currentWrite ++
        Bytes.toLe 4 footerMagicV2)) ((fileImage blocks).length - footerSizeV2)
    ((indexOf 0 blocks).take (blocks.length % 2 ^ 32))
    (fun entry member => fits entry (mem_of_mem_take member))
    (by rw [kept, start, total, footerSizeV2]; omega) (by omega)
  rw [← split, kept, start] at entries
  rw [fromFileData, footer]
  change readEntries _ _ ((data.length % 2 ^ 64 + 4) % 2 ^ 64) _ = _
  rw [Nat.mod_eq_of_lt bound, Nat.mod_eq_of_lt (show data.length + 4 < 2 ^ 64 by omega), entries]

theorem readBlock_length {data bytes : Bytes} {entry : BlockIndexEntry}
    (read : readBlock data entry = some bytes) : bytes.length = entry.blockLen := by
  rw [readBlock] at read
  split at read
  · rw [← some.inj read, slice, length_drop, length_take]
    omega
  · cases read

/-- Blocks of fewer than 2^32 bytes are read where they stand. -/
theorem mapM_readBlock {pre post : Bytes} {blocks : List Bytes}
    (short : ∀ bytes ∈ blocks, bytes.length < 2 ^ 32) :
    (indexOf pre.length blocks).mapM (readBlock (pre ++ blocks.flatten ++ post)) = some blocks := by
  induction blocks generalizing pre with
  | nil => rfl
  | cons bytes rest ih =>
    obtain ⟨here, later⟩ := forall_mem_cons.mp short
    have whole : pre ++ (bytes :: rest).flatten ++ post =
        pre ++ bytes ++ (rest.flatten ++ post) := by
      simp only [flatten_cons, append_assoc]
    have next := @ih (pre ++ bytes) later
    rw [length_append, append_assoc (pre ++ bytes)] at next
    have read : readBlock (pre ++ bytes ++ (rest.flatten ++ post)) ⟨pre.length, bytes.length⟩ =
        some bytes := by
      rw [readBlock, if_pos (by simp), slice_append rfl rfl]
    rw [indexOf, whole, mapM_cons, Nat.mod_eq_of_lt here, read, next]
    rfl

/-- A file gives back its blocks exactly when the counts do not wrap. -/
theorem fileBlocks_fileImage (small : (fileImage blocks).length < 2 ^ 64) :
    fileBlocks (fileImage blocks) = some blocks ↔
      blocks.length < 2 ^ 32 ∧ ∀ bytes ∈ blocks, bytes.length < 2 ^ 32 := by
  simp only [fileBlocks, fromFileData_fileImage small]
  constructor
  · intro collected
    have pairs := Collect.forall₂_of_mapM collected
    have count := pairs.length_eq
    rw [length_take, length_indexOf] at count
    refine ⟨by omega, fun bytes member => ?_⟩
    obtain ⟨entry, paired, read⟩ := Engine.exists_mem_zip pairs.flip bytes member
    have listed := mem_of_mem_take (of_mem_zip paired).2
    have fits := indexOf_fits (Nat.lt_succ_self (0 + blocks.flatten.length)) entry listed
    exact readBlock_length read ▸ fits.2
  · rintro ⟨few, short⟩
    rw [Nat.mod_eq_of_lt few, take_of_length_le (by rw [length_indexOf])]
    exact @mapM_readBlock [] _ blocks short

section Refinement

variable {pax : PaxFormat} {config : FlushConfig} {registrations : List ColumnarRegistration}
  {commitTimestamp : Timestamp}

/-- The bytes of a block, where there are any. -/
def PaxFormat.bytesOf (pax : PaxFormat) (block : PaxBlock) : Bytes := (pax.encode block).getD []

def PaxFormat.blockLen (pax : PaxFormat) (block : PaxBlock) : Nat := (pax.bytesOf block).length

def PaxFormat.image (pax : PaxFormat) (file : Nat × SstFile) : WrittenFile :=
  ⟨file.1, fileImage (file.2.map pax.bytesOf)⟩

/-- The place in the file is counted in 32 bits. -/
def wrapInfo (info : SstBlockInfo) : SstBlockInfo :=
  { info with blockIndex := info.blockIndex % 2 ^ 32 }

/-- What is written are the images of the files that the blocks are packed into. -/
structure Images (pax : PaxFormat) (out : FlushOutput) (packed : FlushResult) : Prop where
  files : out.files = packed.files.map pax.image
  blockMap : out.blockMap = packed.blockMap.map wrapInfo
  encoded : ∀ f ∈ packed.files, ∀ b ∈ f.2, pax.encode b = some (pax.bytesOf b)

/-- The loop writes the images of the packed files. -/
theorem images_writeLoop (nid idx : Nat) (current : SstFile) (chunks : List (List Entry))
    (encoded : ∀ b ∈ current, pax.encode b = some (pax.bytesOf b))
    (some : ∀ f ∈ (packLoop pax.blockLen config registrations commitTimestamp nid idx current
      (current.map pax.bytesOf).flatten.length chunks).files, ∀ b ∈ f.2, ∀ bytes,
        pax.encode b = .some bytes → bytes ≠ [])
    {out : FlushOutput}
    (written : writeLoop pax config registrations commitTimestamp nid idx
      (current.map pax.bytesOf).flatten (indexOf 0 (current.map pax.bytesOf))
      (current.length % 2 ^ 32) chunks = .some out) :
    Images pax out (packLoop pax.blockLen config registrations commitTimestamp nid idx current
      (current.map pax.bytesOf).flatten.length chunks) := by
  induction chunks generalizing nid idx current out with
  | nil =>
    by_cases empty : current = []
    · subst empty
      cases written
      exact ⟨rfl, rfl, by simp [packLoop]⟩
    · have full : (current.map pax.bytesOf).flatten ≠ [] := by
        obtain ⟨block, rest, rfl⟩ := exists_cons_of_ne_nil empty
        have first := some (nid, block :: rest) (by simp [packLoop]) block mem_cons_self _
          (encoded block mem_cons_self)
        simp [first]
      rw [writeLoop, if_neg full] at written
      cases written
      simp only [packLoop, if_neg empty]
      refine ⟨?_, rfl, ?_⟩
      · simp [PaxFormat.image, closeFile, fileImage]
      · simpa using encoded
  | cons chunk rest ih =>
    obtain ⟨bytes, made, written⟩ := bind_eq_some_iff.mp written
    generalize building : buildBlock registrations commitTimestamp nid chunk = block at made
    have own : pax.bytesOf block = bytes := by rw [PaxFormat.bytesOf, made, getD_some]
    have data : ((current ++ [block]).map pax.bytesOf).flatten =
        (current.map pax.bytesOf).flatten ++ bytes := by simp [own]
    have index : indexOf 0 ((current ++ [block]).map pax.bytesOf) =
        addBlock (indexOf 0 (current.map pax.bytesOf)) (current.map pax.bytesOf).flatten.length
          (bytes.length % 2 ^ 32) := by
      rw [map_append, map_singleton, indexOf_append, own, Nat.zero_add]
    have count : (current ++ [block]).length % 2 ^ 32 = (current.length % 2 ^ 32 + 1) % 2 ^ 32 := by
      rw [length_append, length_singleton, Nat.mod_add_mod]
    have length : (current.map pax.bytesOf).flatten.length + pax.blockLen block =
        ((current ++ [block]).map pax.bytesOf).flatten.length := by
      rw [data, length_append, PaxFormat.blockLen, own]
    have encoded' : ∀ b ∈ current ++ [block], pax.encode b = .some (pax.bytesOf b) := by
      intro b member
      rcases mem_append.mp member with member | member
      · exact encoded b member
      · rw [mem_singleton.mp member, made, own]
    simp only [packLoop, building, length] at some ⊢
    simp only [← data, ← index, ← count] at written
    split at written
    · rename_i full
      simp only [if_pos full] at some ⊢
      obtain ⟨later, tail, rfl⟩ := map_eq_some_iff.mp written
      obtain ⟨files, blockMap, rest⟩ := ih (nid + 2) (idx + 1) [] (by simp)
        (fun f member => some f (mem_cons_of_mem _ member)) tail
      refine ⟨?_, ?_, ?_⟩
      · rw [files]
        rfl
      · rw [blockMap]
        rfl
      · intro f member
        rcases mem_cons.mp member with rfl | member
        · exact encoded'
        · exact rest f member
    · rename_i room
      simp only [if_neg room] at some ⊢
      obtain ⟨later, tail, rfl⟩ := map_eq_some_iff.mp written
      obtain ⟨files, blockMap, rest⟩ := ih (nid + 1) idx (current ++ [block]) encoded' some tail
      refine ⟨files, ?_, rest⟩
      rw [blockMap]
      rfl

end Refinement

section Runs

variable {pax : PaxFormat} {config : FlushConfig} {registrations : List ColumnarRegistration}
  {commitTimestamp : Timestamp} {entries : List Entry} {packed : FlushResult} {out : FlushOutput}

/-- Every block that is packed was built from a chunk. -/
theorem chunk_of_packLoop {blockLen : PaxBlock → Nat} (nid idx : Nat) (current : SstFile)
    (len : Nat)
    (chunks : List (List Entry)) :
    ∀ f ∈ (packLoop blockLen config registrations commitTimestamp nid idx current len chunks).files,
      ∀ b ∈ f.2, b ∈ current ∨ ∃ chunk ∈ chunks, b.rows = chunk.map entryToRow := by
  induction chunks generalizing nid idx current len with
  | nil =>
    intro f member b inside
    by_cases empty : current = []
    · simp [packLoop, empty] at member
    · simp only [packLoop, if_neg empty, mem_singleton] at member
      subst member
      exact .inl inside
  | cons chunk rest ih =>
    have joined : ∀ b ∈ current ++ [buildBlock registrations commitTimestamp nid chunk],
        b ∈ current ∨ ∃ c ∈ chunk :: rest, b.rows = c.map entryToRow := by
      intro b member
      rcases mem_append.mp member with member | member
      · exact .inl member
      · rw [mem_singleton.mp member]
        exact .inr ⟨chunk, mem_cons_self, rfl⟩
    have later {b : PaxBlock} : (∃ c ∈ rest, b.rows = c.map entryToRow) →
        ∃ c ∈ chunk :: rest, b.rows = c.map entryToRow := by
      rintro ⟨c, member, rows⟩
      exact ⟨c, mem_cons_of_mem _ member, rows⟩
    intro f member b inside
    simp only [packLoop] at member
    split at member
    · rcases mem_cons.mp member with rfl | member
      · exact joined b inside
      · rcases ih _ _ [] 0 f member b inside with absurd | made
        · cases absurd
        · exact .inr (later made)
    · rcases ih _ _ _ _ f member b inside with own | made
      · exact joined b own
      · exact .inr (later made)

/-- The row that is read at a place of the files. -/
def rowIn (pax : PaxFormat) (files : List WrittenFile) (p : Nat × Nat × Nat) : Option SstRow :=
  ((files[p.1]?).bind fun file => fileBlocks file.data).bind fun blocks =>
    (blocks[p.2.1]?).bind fun bytes => (pax.decode bytes).bind fun rows => rows[p.2.2]?

def fileRows (pax : PaxFormat) (file : WrittenFile) : Option (List (List SstRow)) :=
  (fileBlocks file.data).bind fun blocks => blocks.mapM pax.decode

/-- The files parse to the blocks that were packed; these hold the entries in the order of
their keys, none of them rows of two tables; and every entry is read at its place. -/
structure Exact (pax : PaxFormat) (registrations : List ColumnarRegistration) (sstId : Nat)
    (entries : List Entry) (packed : FlushResult) (out : FlushOutput) : Prop where
  parsed : out.files.map (fun file => fileBlocks file.data) =
    packed.files.map fun f => some (f.2.map pax.bytesOf)
  contents : (out.files.mapM (fileRows pax)).map (fun files => files.flatten.flatten) =
    some (entries.map entryToRow)
  ascending : entries.Pairwise fun a b => compare a.1 b.1 = .lt
  unmixed : ∀ file ∈ out.files, ∀ blocks, fileRows pax file = some blocks → ∀ rows ∈ blocks,
    ∀ r ∈ rows, ∀ r' ∈ rows, regOf registrations r.key = regOf registrations r'.key
  placed : List.Forall₂ (fun e p => rowIn pax out.files p = some (entryToRow e)) entries
    (out.blockMap.flatMap places)
  located : List.Forall₂ (fun e location => readBack pax sstId out.files location = e.2.value)
    entries (artLocations sstId out.blockMap)

/-- Lengths and counts of blocks are below 2^32. -/
def Sized (pax : PaxFormat) (packed : FlushResult) : Prop :=
  ∀ f ∈ packed.files, f.2.length < 2 ^ 32 ∧ ∀ b ∈ f.2, (pax.bytesOf b).length < 2 ^ 32

variable {bytes : Bytes}

theorem registered_of_fileBlocks {data : Bytes} {blocks : List Bytes} {n : Nat}
    (parsed : fileBlocks data = some blocks) (found : blocks[n]? = some bytes) :
    ∃ index entry, registeredIndex data = some index ∧ index.getBlock n = some entry ∧
      readBlock data entry = some bytes := by
  rw [fileBlocks] at parsed
  split at parsed
  · rename_i index opened
    obtain ⟨entry, listed, read⟩ := Collect.getElem?_of_mapM parsed found
    exact ⟨index, entry, by rw [registeredIndex, opened], listed, read⟩
  · cases parsed

/-- What is assumed of the blocks of a flush. -/
def RoundTrip (pax : PaxFormat) (packed : FlushResult) : Prop :=
  ∀ f ∈ packed.files, ∀ b ∈ f.2, ∀ bytes, pax.encode b = some bytes → pax.RoundTrips b bytes

section Files

variable (images : Images pax out packed) (roundTrip : RoundTrip pax packed)
  (addressable : ∀ file ∈ out.files, file.data.length < 2 ^ 64)

include images addressable

theorem parsed_iff : out.files.map (fun file => fileBlocks file.data) =
    (packed.files.map fun f => some (f.2.map pax.bytesOf)) ↔ Sized pax packed := by
  have small : ∀ f ∈ packed.files, (fileImage (f.2.map pax.bytesOf)).length < 2 ^ 64 := by
    intro f member
    exact addressable (pax.image f) (images.files ▸ List.mem_map_of_mem member)
  rw [images.files, List.map_map, map_inj_left]
  refine forall₂_congr fun f member => ?_
  have exact := fileBlocks_fileImage (small f member)
  rw [length_map, List.forall_mem_map] at exact
  exact exact

variable (sized : Sized pax packed)

include sized

variable {f : Nat × SstFile}

theorem fileBlocks_image (member : f ∈ packed.files) :
    fileBlocks (pax.image f).data = some (f.2.map pax.bytesOf) := by
  have small := addressable (pax.image f) (images.files ▸ List.mem_map_of_mem member)
  refine (fileBlocks_fileImage small).mpr ⟨?_, ?_⟩
  · rw [length_map]
    exact (sized f member).1
  · exact List.forall_mem_map.mpr (sized f member).2

include roundTrip

theorem fileRows_image (member : f ∈ packed.files) :
    fileRows pax (pax.image f) = some (f.2.map PaxBlock.rows) := by
  rw [fileRows, fileBlocks_image images addressable sized member, bind_some, mapM_map]
  exact Collect.mapM_of_forall fun b inside =>
    (roundTrip f member b inside _ (images.encoded f member b inside)).decode

theorem contents_eq : (out.files.mapM (fileRows pax)).map (fun files => files.flatten.flatten) =
    some (packed.files.flatMap fun f => SstFile.rows f.2) := by
  have read : (packed.files.mapM fun f => fileRows pax (pax.image f)) =
      some (packed.files.map fun f => f.2.map PaxBlock.rows) :=
    Collect.mapM_of_forall fun f member => fileRows_image images roundTrip addressable sized member
  rw [images.files, mapM_map, Function.comp_def, read, map_some, flatten_flatten, List.map_map]
  rfl

/-- A placed row is read from its block, and its place has 32 bits. -/
theorem placed_row {e : Entry} {p : Nat × Nat × Nat} (placed : Placed packed.files 0 e p)
    (sstId : Nat) : p.2.1 < 2 ^ 32 ∧ rowIn pax out.files p = some (entryToRow e) ∧
      readBack pax sstId out.files (.sst (sstId + p.1) p.2.1 (p.2.2 % 2 ^ 32)) =
        some (entryToRow e).value := by
  obtain ⟨-, found⟩ := placed
  rw [Nat.sub_zero, rowAt] at found
  obtain ⟨f, file, found⟩ := bind_eq_some_iff.mp found
  obtain ⟨b, block, row⟩ := bind_eq_some_iff.mp found
  have member := mem_of_getElem? file
  have inside := mem_of_getElem? block
  obtain ⟨few, short⟩ := sized f member
  have reads := roundTrip f member b inside _ (images.encoded f member b inside)
  have written : out.files[p.1]? = some (pax.image f) := by
    rw [images.files, getElem?_map, file, map_some]
  have blocks := fileBlocks_image images addressable sized member
  have bytes : (f.2.map pax.bytesOf)[p.2.1]? = some (pax.bytesOf b) := by
    rw [getElem?_map, block, map_some]
  obtain ⟨index, entry, registered, listed, read⟩ := registered_of_fileBlocks blocks bytes
  obtain ⟨below, -⟩ := List.getElem?_eq_some_iff.mp block
  obtain ⟨low, -⟩ := List.getElem?_eq_some_iff.mp row
  have narrow : p.2.2 % 2 ^ 32 = p.2.2 := by
    have := reads.offsets
    have := short b inside
    exact Nat.mod_eq_of_lt (by omega)
  refine ⟨by omega, ?_, ?_⟩
  · rw [rowIn, written, bind_some, blocks, bind_some, bytes, bind_some,
      reads.decode, bind_some, row]
  · rw [readBack, if_neg (by omega), Nat.add_sub_cancel_left, written, bind_some, registered,
      bind_some, listed, bind_some, read, bind_some, narrow]
    exact reads.readValue p.2.2 _ row

end Files

theorem forall₂_both {α β : Type*} {R S : α → β → Prop} {l : List α} {l' : List β}
    (first : List.Forall₂ R l l') (second : List.Forall₂ S l l') :
    List.Forall₂ (fun a b => R a b ∧ S a b) l l' := by
  induction first with
  | nil => exact .nil
  | cons head tail ih =>
    cases second with
    | cons head' tail' => exact .cons ⟨head, head'⟩ (ih tail')

theorem artLocations_eq (sstId : Nat) (blockMap : List SstBlockInfo) :
    artLocations sstId blockMap = (blockMap.flatMap places).map fun p =>
      .sst (sstId + p.1) p.2.1 (p.2.2 % 2 ^ 32) := by
  rw [artLocations, Engine.flushLocations_eq, List.map_map]
  rfl

theorem places_wrapInfo (blockMap : List SstBlockInfo) :
    (blockMap.map wrapInfo).flatMap places = (blockMap.flatMap places).map fun p =>
      (p.1, p.2.1 % 2 ^ 32, p.2.2) := by
  rw [map_flatMap, flatMap_map]
  congr 1
  funext info
  simp [places, wrapInfo]

/-- The written files hold the rows, exactly when all are sized and none is deleted. -/
theorem exact_iff {sstId : Nat} (images : Images pax out packed) (roundTrip : RoundTrip pax packed)
    (addressable : ∀ file ∈ out.files, file.data.length < 2 ^ 64)
    (placed : List.Forall₂ (Placed packed.files 0) entries (packed.blockMap.flatMap places))
    (rows : packed.files.flatMap (fun f => SstFile.rows f.2) = entries.map entryToRow)
    (cut : ∀ f ∈ packed.files, ∀ b ∈ f.2, ∃ chunk, OneTable registrations chunk ∧
      b.rows = chunk.map entryToRow)
    (ascending : entries.Pairwise fun a b => compare a.1 b.1 = .lt) :
    Exact pax registrations sstId entries packed out ↔
      Sized pax packed ∧ ∀ e ∈ entries, e.2.value.isSome = true := by
  have located (sized : Sized pax packed) : List.Forall₂ (fun e location =>
      readBack pax sstId out.files location = some (entryToRow e).value) entries
        (artLocations sstId out.blockMap) := by
    rw [artLocations_eq, images.blockMap, places_wrapInfo, List.map_map, forall₂_map_right_iff]
    refine placed.imp fun e p at_place => ?_
    obtain ⟨narrow, -, read⟩ := placed_row images roundTrip addressable sized at_place sstId
    rw [Function.comp_apply, Nat.mod_eq_of_lt narrow]
    exact read
  constructor
  · intro exact
    have sized := (parsed_iff images addressable).mp exact.parsed
    refine ⟨sized, fun e member => ?_⟩
    obtain ⟨location, -, read, stored⟩ :=
      Engine.exists_mem_zip (forall₂_both (located sized) exact.located) e member
    rw [← stored, read]
    rfl
  · rintro ⟨sized, live⟩
    refine ⟨(parsed_iff images addressable).mpr sized, ?_, ascending, ?_, ?_, ?_⟩
    · rw [contents_eq images roundTrip addressable sized, rows]
    · intro file member blocks read block inside r here r' here'
      rw [images.files] at member
      obtain ⟨f, packedHere, rfl⟩ := List.mem_map.mp member
      rw [fileRows_image images roundTrip addressable sized packedHere] at read
      cases read
      obtain ⟨b, own, rfl⟩ := List.mem_map.mp inside
      obtain ⟨chunk, one, made⟩ := cut f packedHere b own
      rw [made] at here here'
      obtain ⟨e, first, rfl⟩ := List.mem_map.mp here
      obtain ⟨e', second, rfl⟩ := List.mem_map.mp here'
      exact one e first e' second
    · rw [images.blockMap, places_wrapInfo, forall₂_map_right_iff]
      refine placed.imp fun e p at_place => ?_
      obtain ⟨narrow, row, -⟩ := placed_row images roundTrip addressable sized at_place sstId
      rw [Nat.mod_eq_of_lt narrow]
      exact row
    · refine forall₂_iff_get.mpr ⟨(located sized).length_eq, fun n inside inside' => ?_⟩
      have read := (forall₂_iff_get.mp (located sized)).2 n inside inside'
      obtain ⟨value, stored⟩ :=
        isSome_iff_exists.mp (live _ (List.get_mem entries ⟨n, inside⟩))
      rw [read, stored, entryToRow, stored]
      rfl

/-- The files of a flush hold its rows, exactly when they fit and no key is deleted. -/
theorem flush_files_exact (pax : PaxFormat) (config : FlushConfig)
    (registrations : List ColumnarRegistration) (commitTimestamp : Timestamp)
    (nextBlockId sstId : Nat) (memtable : Memtable) (out : FlushOutput)
    (written : writeMemtable pax config registrations commitTimestamp nextBlockId memtable =
      some out)
    (roundTrip : RoundTrip pax (flushMemtableInner pax.blockLen config registrations
      commitTimestamp nextBlockId memtable))
    (addressable : ∀ file ∈ out.files, file.data.length < 2 ^ 64) :
    Exact pax registrations sstId memtable.iterAll (flushMemtableInner pax.blockLen config
        registrations commitTimestamp nextBlockId memtable) out ↔
      Sized pax (flushMemtableInner pax.blockLen config registrations commitTimestamp nextBlockId
        memtable) ∧ ∀ e ∈ memtable.iterAll, e.2.value.isSome = true := by
  have whole : (splitIntoBlocks config registrations memtable.iterAll).flatten = memtable.iterAll :=
    flatten_splitIntoBlocks memtable.iterAll
  refine exact_iff (images_writeLoop nextBlockId 0 [] _ (by simp) ?_ written) roundTrip addressable
    ?_ ?_ ?_ memtable.map.ordered_keys_toList
  · rintro f member b inside bytes encoded rfl
    exact absurd (roundTrip f member b inside [] encoded).offsets (by simp)
  · have each := @placed_packLoop config registrations pax.blockLen commitTimestamp nextBlockId 0 []
      0 (splitIntoBlocks config registrations memtable.iterAll)
    rwa [whole] at each
  · have each := @rows_packLoop config registrations pax.blockLen commitTimestamp nextBlockId 0 [] 0
      (splitIntoBlocks config registrations memtable.iterAll)
    rwa [whole] at each
  · intro f member b inside
    rcases chunk_of_packLoop nextBlockId 0 [] 0 _ f member b inside with absent | made
    · cases absent
    · obtain ⟨chunk, listed, rows⟩ := made
      exact ⟨chunk, (oneTable_splitIntoBlocks memtable.iterAll chunk listed).2, rows⟩

/-- Blocks without typed columns, in the format of the PAX writer. -/
def plainFormat (codecs : PaxBytes.WriteCodecs) : PaxFormat where
  encode block :=
    ((PaxBytes.writeWithCodecs codecs (UInt64.ofNat block.blockId)
      (UInt64.ofNat block.commitTimestamp) [⟨.blob, block.rows.map SstRow.key⟩,
        ⟨.blob, block.rows.map SstRow.value⟩, ⟨.blob, block.rows.map fun r => Bytes.toLe 8 r.ts⟩]
      [.zstd, .none, .none]).toOption).map PaxBytes.serialize
  decode data := do
    let block ← PaxBytes.deserialize codecs.toCodecs data
    let keys ← (PaxBytes.readColumn codecs.toCodecs block 0).toOption
    let values ← (PaxBytes.readColumn codecs.toCodecs block 1).toOption
    let stamps ← (PaxBytes.readColumn codecs.toCodecs block 2).toOption
    some (((keys.zip values).zip stamps).map fun r => ⟨r.1.1, r.1.2, Bytes.ofLe r.2⟩)
  readValue data row := (PaxBytes.readValueFromRawBlock codecs.toCodecs data 1 row).toOption

def sampleFormat : PaxFormat := plainFormat PaxBytes.markingCodecs

def sampleRegistration : ColumnarRegistration := ⟨[117, 58], fun _ => none⟩

/-- Two rows of no table and one of a registered one, in one file. -/
def sampleMemtable : Memtable :=
  ((((Memtable.new 1000).put [97] 1 (some [49])).1.put [117, 58, 99] 2 (some [51])).1.put [98] 3
    (some [50])).1

def reads (pax : PaxFormat) (block : PaxBlock) : Bool :=
  (pax.encode block).all fun bytes => decide (pax.decode bytes = some block.rows) &&
    (block.rows.zipIdx.all fun r => decide (pax.readValue bytes r.2 = some r.1.value)) &&
    decide (4 * block.rows.length < bytes.length)

theorem roundTrips_of_reads {block : PaxBlock} (read : reads pax block = true)
    (encoded : pax.encode block = some bytes) : pax.RoundTrips block bytes := by
  simp only [reads, encoded, all_some, Bool.and_eq_true, decide_eq_true_eq,
    List.all_eq_true] at read
  obtain ⟨⟨decoded, values⟩, long⟩ := read
  exact ⟨decoded, fun row r found => values (r, row) (mem_zipIdx_iff_getElem?.mpr found), long⟩

theorem flush_files_exact_sample : ∃ out,
    writeMemtable sampleFormat ⟨1000, 2⟩ [sampleRegistration] 0 7 sampleMemtable = some out ∧
      Exact sampleFormat [sampleRegistration] 3 sampleMemtable.iterAll
        (flushMemtableInner sampleFormat.blockLen ⟨1000, 2⟩ [sampleRegistration] 0 7
          sampleMemtable) out ∧ out.blockMap = [⟨0, 0, 2⟩, ⟨0, 1, 1⟩] := by
  have run : (writeMemtable sampleFormat ⟨1000, 2⟩ [sampleRegistration] 0 7 sampleMemtable).any
      (fun out => (out.files.all fun file => decide (file.data.length < 2 ^ 64)) &&
        decide (out.blockMap = [⟨0, 0, 2⟩, ⟨0, 1, 1⟩])) = true := by decide +kernel
  cases written : writeMemtable sampleFormat ⟨1000, 2⟩ [sampleRegistration] 0 7 sampleMemtable with
  | none => simp [written] at run
  | some out =>
    simp only [written, any_some, Bool.and_eq_true, List.all_eq_true, decide_eq_true_eq] at run
    have read : ∀ f ∈ (flushMemtableInner sampleFormat.blockLen ⟨1000, 2⟩ [sampleRegistration] 0 7
        sampleMemtable).files, ∀ b ∈ f.2, reads sampleFormat b = true := by decide +kernel
    have sized : Sized sampleFormat (flushMemtableInner sampleFormat.blockLen ⟨1000, 2⟩
        [sampleRegistration] 0 7 sampleMemtable) ∧
          ∀ e ∈ sampleMemtable.iterAll, e.2.value.isSome = true := by
      rw [Sized]
      decide +kernel
    exact ⟨out, rfl, (flush_files_exact sampleFormat ⟨1000, 2⟩ [sampleRegistration] 0 7 3
      sampleMemtable out written (fun f member b inside bytes encoded =>
        roundTrips_of_reads (read f member b inside) encoded) run.1).mpr sized, run.2⟩

/-- A deleted key is read as an empty value at the place of its entry. -/
theorem flush_of_tombstone_reads_empty : let memtable := ((Memtable.new 1000).put [97] 1 none).1
    ∃ out, writeMemtable sampleFormat ⟨1000, 2⟩ [] 0 7 memtable = some out ∧
      memtable.iterAll.map (fun e => e.2.value) = [none] ∧
      (artLocations 3 out.blockMap).map (readBack sampleFormat 3 out.files) = [some []] ∧
      ¬ Exact sampleFormat [] 3 memtable.iterAll
        (flushMemtableInner sampleFormat.blockLen ⟨1000, 2⟩ [] 0 7 memtable) out := by
  intro memtable
  have run : (writeMemtable sampleFormat ⟨1000, 2⟩ [] 0 7 memtable).map (fun out =>
      (artLocations 3 out.blockMap).map (readBack sampleFormat 3 out.files)) = some [some []] := by
    decide +kernel
  have deleted : memtable.iterAll.map (fun e => e.2.value) = [none] := by decide +kernel
  obtain ⟨out, written, read⟩ := map_eq_some_iff.mp run
  refine ⟨out, written, deleted, read, fun exact => ?_⟩
  have same := forall₂_map_right_iff.mpr
    (forall₂_map_left_iff.mpr (exact.located.imp fun _ _ stored => stored.symm))
  rw [forall₂_eq_eq_eq, deleted, read] at same
  cases same

end Runs

end GalaxDb.Flush
