import GalaxDb.Storage.CompactionLayout
import GalaxDb.Storage.Encryption
import GalaxDb.Storage.PaxBytes

/-!
# Compaction of files that cannot be read

The SST files as bytes, with a registry that remembers the block index of each of them and
whether its blocks are encrypted. A compaction reads the index of a file anew, passes over
the blocks that it cannot read and unlinks the file.
-/

namespace GalaxDb

open Std Compaction PaxBytes SstBlockIndex Option

/-- Block codecs, and the bytes of a block that is written. -/
structure PaxFormat extends Codecs where
  serialize : PaxBlock → Bytes

structure RawEntry where
  path : Nat
  blockIndex : SstBlockIndex
  encrypted : Bool
  deriving DecidableEq

structure CompactionStats where
  inputSsts : Nat
  outputSsts : Nat
  keysRetained : Nat
  versionsGcDropped : Nat
  deriving DecidableEq

/-- The part of an engine that a compaction works on. A path without bytes is a file that
cannot be opened. -/
structure RawStore where
  config : EngineConfig
  registry : ExtTreeMap Nat RawEntry compare
  files : ExtTreeMap Nat Bytes compare
  art : ArtIndex RowLocation
  nextSstId : Nat
  nextBlockId : Nat
  pinSource : List Timestamp
  columnar : List ColumnarRegistration
  tde : Option (TdeModule Bytes)
  nonce : Nat

/-- What comes of one block of the index. -/
inductive BlockRead where
  | rows (rows : List SstRow)
  | skipped
  | failed (error : SstError)
  | panicked
  deriving DecidableEq

namespace RawStore

variable (fmt : PaxFormat)

/-- The index in memory is the one of the footer; a file without one counts as one block, a
file that cannot be opened has none. -/
def registerAs (encrypted : Bool) (s : RawStore) (sstId path : Nat) :
    Option (Except SstError RawStore) :=
  let insert := fun index : SstBlockIndex =>
    { s with registry := s.registry.insert sstId ⟨path, index, encrypted⟩ }
  match s.files[path]? with
  | none => some (.ok (insert []))
  | some data =>
    (fromFileData data).map fun
      | .ok index => .ok (insert index)
      | .error e => if e.isFormat then .error e else .ok (insert (wholeFile data))

def register := registerAs false

/-- What `new` makes of the files of a directory: each is registered as a plain one. -/
def discover (s : RawStore) : Option (Except SstError RawStore) :=
  (s.files.toList.map Prod.fst).foldlM (fun s id =>
    match s with
    | .error e => some (.error e)
    | .ok s => s.register id id) (.ok s)

def decodeRowTs (bytes : Bytes) : Option Timestamp :=
  if bytes.length = 8 then some (Bytes.ofLe bytes) else none

/-- The timestamp of every row, from the third column or else from the header. -/
def rowTimestamps (block : RawBlock) (rows : Nat) : Except Fault (List Timestamp) :=
  let headerTs := block.header.commitTimestamp
  if 3 ≤ block.header.columnCount then
    match readColumn fmt.toCodecs block 2 with
    | .ok col => .ok (col.map fun bytes => (decodeRowTs bytes).getD headerTs)
    | .error .error => .ok (List.replicate rows headerTs)
    | .error .panic => .error .panic
  else .ok (List.replicate rows headerTs)

/-- Keys and values are paired up to the shorter column. -/
def zipRows (headerTs : Timestamp) : List Bytes → List Bytes → List Timestamp → List SstRow
  | key :: keys, value :: values, timestamps =>
    ⟨key, value, timestamps.headD headerTs⟩ :: zipRows headerTs keys values timestamps.tail
  | _, _, _ => []

def blockRows (block : RawBlock) : BlockRead :=
  match readColumn fmt.toCodecs block 0 with
  | .error .error => .skipped
  | .error .panic => .panicked
  | .ok keys =>
    match readColumn fmt.toCodecs block 1 with
    | .error .error => .skipped
    | .error .panic => .panicked
    | .ok values =>
      match rowTimestamps fmt block keys.length with
      | .error _ => .panicked
      | .ok timestamps => .rows (zipRows block.header.commitTimestamp keys values timestamps)

/-- One round of the loop over the blocks of a file. -/
def readBlock (s : RawStore) (entry : RawEntry) (data : Bytes) (be : BlockIndexEntry) : BlockRead :=
  let start := be.fileOffset
  let stop := (start + be.blockLen) % 2 ^ 64
  if data.length < stop then .skipped
  else if stop < start then .panicked
  else match decryptBlock s.tde entry.encrypted (slice data start stop) with
    | none => .failed .encryption
    | some bytes =>
      match deserialize fmt.toCodecs bytes with
      | none => .skipped
      | some block => blockRows fmt block

/-- The index as the file has it now, not as the registry remembers it. -/
def ownIndex (data : Bytes) : Option SstBlockIndex :=
  (fromFileData data).map fun
    | .ok index => index
    | .error _ => wholeFile data

def readBlocks (s : RawStore) (entry : RawEntry) (data : Bytes) :
    SstBlockIndex → Option (Except SstError (List SstRow))
  | [] => some (.ok [])
  | be :: rest =>
    match readBlock fmt s entry data be with
    | .panicked => none
    | .failed e => some (.error e)
    | .skipped => readBlocks s entry data rest
    | .rows rows => (readBlocks s entry data rest).map fun r => r.map (rows ++ ·)

def readInput (s : RawStore) (entry : RawEntry) : Option (Except SstError (List SstRow)) :=
  match s.files[entry.path]? with
  | none => some (.error .io)
  | some data => (ownIndex data).bind (readBlocks fmt s entry data)

def readInputs (s : RawStore) : List (Nat × RawEntry) → Option (Except SstError (List SstRow))
  | [] => some (.ok [])
  | input :: rest =>
    match readInput fmt s input.2 with
    | none => none
    | some (.error e) => some (.error e)
    | some (.ok rows) => (readInputs s rest).map fun r => r.map (rows ++ ·)

/-- The length of a block on disk; it does not depend on the nonce. -/
def blockLen (s : RawStore) (block : PaxBlock) : Nat :=
  (encryptBlock s.tde 0 (fmt.serialize block)).length

def indexOf : Nat → List Bytes → SstBlockIndex
  | _, [] => []
  | offset, block :: rest => ⟨offset, block.length % 2 ^ 32⟩ :: indexOf (offset + block.length) rest

/-- The bytes of a file: its blocks, then index and footer. -/
def fileBytes (blocks : List Bytes) : Bytes :=
  blocks.flatten ++ (indexOf 0 blocks).serializeWithFooter blocks.flatten.length

def outputBytes (s : RawStore) (out : CompactionOutput) : Bytes :=
  fileBytes (encryptAll s.tde s.nonce (out.blocks.map fmt.serialize))

/-- Write and register one output, then move the index entries of its latest versions. An
error leaves behind what is done so far. -/
def commitOutput (inputIds : List Nat) (s : RawStore) (out : CompactionOutput) :
    Option (Except SstError Unit × RawStore) :=
  let sid := s.nextSstId
  let fid := s.nextBlockId
  let written := { s with
    nextSstId := sid + 1
    nextBlockId := fid + 1
    nonce := s.nonce + out.blocks.length
    files := s.files.insert fid (outputBytes fmt s out) }
  match written.registerAs s.tde.isSome sid fid with
  | none => none
  | some (.error e) => some (.error e, written)
  | some (.ok s) =>
    (out.artTargets.foldlM
      (fun art t => Engine.relocateIfPointsTo art t.1 inputIds (.sst sid t.2.1 t.2.2)) s.art).map
        fun art => (.ok (), { s with art := art })

def commitOutputs (inputIds : List Nat) :
    RawStore → List CompactionOutput → Option (Except SstError Unit × RawStore)
  | s, [] => some (.ok (), s)
  | s, out :: rest =>
    match commitOutput fmt inputIds s out with
    | none => none
    | some (.error e, s) => some (.error e, s)
    | some (.ok (), s) => commitOutputs inputIds s rest

/-- The registry lets go of the inputs and their files are unlinked. -/
def dropInputs (s : RawStore) (inputs : List (Nat × RawEntry)) : RawStore :=
  { s with
    registry := inputs.foldl (fun reg input => reg.erase input.1) s.registry
    files := inputs.foldl (fun files input => files.erase input.2.path) s.files }

def inputs (s : RawStore) (order : IterOrder) : List (Nat × RawEntry) :=
  order.entries RawEntry.path s.registry

/-- With the state it leaves behind, also after an error. No result is a panic. -/
def compactInner (s : RawStore) (order : IterOrder) (force : Bool) :
    Option (Except SstError CompactionStats × RawStore) :=
  let inputs := s.inputs order
  let threshold := if force then 1 else 2
  if inputs.length < threshold then some (.ok ⟨inputs.length, inputs.length, 0, 0⟩, s)
  else
    match readInputs fmt s inputs with
    | none => none
    | some (.error e) => some (.error e, s)
    | some (.ok rows) =>
      let versions := rows.foldl addVersion ∅
      let outputs := (workerChunks s.config.compactionConcurrency
        (survivors s.pinSource versions)).flatMap
          (buildRun (blockLen fmt s) (latestTs s.pinSource versions) s.config.sstSizeBytes
            s.config.maxRowsPerSst s.columnar)
      let retained := versions.toList.filter fun e => !(gcKey s.pinSource e.2).isEmpty
      let dropped := versions.toList.map fun e =>
        (history e.2).length - (gcKey s.pinSource e.2).length
      (commitOutputs fmt (inputs.map Prod.fst) s outputs).map fun
        | (.error e, s) => (.error e, s)
        | (.ok (), s) =>
          (.ok ⟨inputs.length, outputs.length, retained.length, dropped.sum⟩, s.dropInputs inputs)

def compact (s : RawStore) (order : IterOrder) :
    Option (Except SstError CompactionStats × RawStore) := compactInner fmt s order false

def forceCompact (s : RawStore) (order : IterOrder) :
    Option (Except SstError CompactionStats × RawStore) := compactInner fmt s order true

section Unread

/-- The blocks that a compaction looks at in a file. -/
def visited (s : RawStore) (entry : RawEntry) : SstBlockIndex :=
  match s.files[entry.path]? with
  | none => []
  | some data => (ownIndex data).getD []

/-- The rows of a block, where the file and the block can be read. -/
def rowsAt (s : RawStore) (entry : RawEntry) (be : BlockIndexEntry) : Option (List SstRow) :=
  match s.files[entry.path]? with
  | none => none
  | some data =>
    match readBlock fmt s entry data be with
    | .rows rows => some rows
    | _ => none

/-- A block of a registered file that a compaction does not get the rows of: it is listed in
the index in memory or in the one of the file, and it is not listed in the file any more, or
cannot be opened, decrypted, deserialized or read by column. -/
def Unread (s : RawStore) (entry : RawEntry) (be : BlockIndexEntry) : Prop :=
  (be ∈ entry.blockIndex ∨ be ∈ s.visited entry) ∧
    ¬ (be ∈ s.visited entry ∧ rowsAt fmt s entry be ≠ none)

/-- What readers reach: the blocks of the index in memory that can be read. -/
def readable (s : RawStore) (order : IterOrder) : List SstRow :=
  (s.inputs order).flatMap fun input =>
    input.2.blockIndex.flatMap fun be => (rowsAt fmt s input.2 be).getD []

/-- Either nothing is done, or every row that could be read, and that the garbage collector
leaves a reader, is still there and no file of a block that was not read is touched. -/
def Spares (order : IterOrder) (s : RawStore) : Except SstError CompactionStats × RawStore → Prop
  | (.error _, s') => s' = s
  | (.ok _, s') =>
    (∀ x ∈ ((collect s.pinSource (s.readable fmt order)).map SurvivorRow.toSstRow).map
      SstRow.toRow, x ∈ (s'.readable fmt order).map SstRow.toRow) ∧
    ∀ input ∈ s.inputs order, ∀ be, Unread fmt s input.2 be →
      s'.files[input.2.path]? = s.files[input.2.path]?

/-- A file that a compaction returns an error for: it cannot be opened, or one of the blocks
listed in it lies inside it and fails to decrypt. -/
def Refused (s : RawStore) (entry : RawEntry) : Prop :=
  match s.files[entry.path]? with
  | none => True
  | some data => ∃ be ∈ s.visited entry, ∃ e, readBlock fmt s entry data be = .failed e

variable {fmt} {s : RawStore}

variable {r : Except SstError (List SstRow)}

variable {inputs : List (Nat × RawEntry)} {entry : RawEntry}

theorem readBlocks_error_iff {data : Bytes} {index : SstBlockIndex}
    (h : readBlocks fmt s entry data index = some r) :
    (∃ e, r = .error e) ↔ ∃ be ∈ index, ∃ e, readBlock fmt s entry data be = .failed e := by
  induction index generalizing r with
  | nil =>
    cases h
    simp
  | cons be rest ih =>
    rw [List.exists_mem_cons_iff]
    rw [readBlocks] at h
    cases read : readBlock fmt s entry data be with
    | panicked => simp [read] at h
    | failed e =>
      simp only [read, some.injEq] at h
      simp [← h]
    | skipped =>
      simp only [read] at h
      simp [ih h]
    | rows rows =>
      simp only [read] at h
      obtain ⟨r', tail, rfl⟩ := map_eq_some_iff.mp h
      cases r' with
      | error e => simp [← ih tail, Except.map]
      | ok rows' => simp [← ih tail, Except.map]

theorem readInput_error_iff (h : readInput fmt s entry = some r) :
    (∃ e, r = .error e) ↔ Refused fmt s entry := by
  cases found : s.files[entry.path]? with
  | none =>
    rw [readInput, found] at h
    cases h
    simp [Refused, found]
  | some data =>
    rw [readInput, found] at h
    obtain ⟨index, own, blocks⟩ := bind_eq_some_iff.mp h
    simp only [Refused, visited, found, own, getD_some]
    exact readBlocks_error_iff blocks

/-- A compaction returns an error exactly if it comes upon a file that it is refused. -/
theorem readInputs_error_iff (h : readInputs fmt s inputs = some r) :
    (∃ e, r = .error e) ↔ ∃ input ∈ inputs, Refused fmt s input.2 := by
  induction inputs generalizing r with
  | nil =>
    cases h
    simp
  | cons input rest ih =>
    rw [List.exists_mem_cons_iff]
    rw [readInputs] at h
    cases first : readInput fmt s input.2 with
    | none => simp [first] at h
    | some r1 =>
      rw [← readInput_error_iff first]
      cases r1 with
      | error e =>
        simp only [first, some.injEq] at h
        simp [← h]
      | ok rows =>
        simp only [first] at h
        obtain ⟨r', tail, rfl⟩ := map_eq_some_iff.mp h
        cases r' with
        | error e => simp [← ih tail, Except.map]
        | ok rows' => simp [← ih tail, Except.map]

/-- A file that was just written is registered, or its bytes are out of range. -/
theorem registerAs_written {encrypted : Bool} {sid fid : Nat} {blocks : List Bytes}
    {r : Except SstError RawStore} (written : s.files[fid]? = some (fileBytes blocks))
    (h : s.registerAs encrypted sid fid = some r) : ∃ s', r = .ok s' := by
  rw [registerAs, written] at h
  obtain ⟨parsed, eq, rfl⟩ := map_eq_some_iff.mp h
  cases parsed with
  | ok index => exact ⟨_, rfl⟩
  | error e =>
    have other := fromFileData_append_not_format eq
    exact ⟨_, if_neg (by simp [other])⟩

theorem commitOutputs_ok {inputIds : List Nat} {outputs : List CompactionOutput}
    {r : Except SstError Unit × RawStore} (h : commitOutputs fmt inputIds s outputs = some r) :
    r.1 = .ok () := by
  induction outputs generalizing s with
  | nil =>
    cases h
    rfl
  | cons out rest ih =>
    rw [commitOutputs] at h
    cases first : commitOutput fmt inputIds s out with
    | none => simp [first] at h
    | some r1 =>
      obtain ⟨r1, s1⟩ := r1
      cases r1 with
      | ok u =>
        simp only [first] at h
        exact ih h
      | error e =>
        simp only [commitOutput] at first
        split at first
        · cases first
        · rename_i e' registered
          obtain ⟨s', eq⟩ := registerAs_written (by simp [outputBytes]; rfl) registered
          cases eq
        · obtain ⟨art, _, eq⟩ := map_eq_some_iff.mp first
          cases eq

theorem getElem?_foldl_erase {files : ExtTreeMap Nat Bytes compare} {input : Nat × RawEntry}
    (mem : input ∈ inputs) :
    (inputs.foldl (fun files input => files.erase input.2.path) files)[input.2.path]? = none := by
  induction inputs using List.reverseRecOn with
  | nil => cases mem
  | append_singleton rest last ih =>
    rw [List.foldl_append, List.foldl_cons, List.foldl_nil, ExtTreeMap.getElem?_erase]
    rcases List.mem_append.mp mem with earlier | here
    · simp [ih earlier]
    · simp [List.mem_singleton.mp here]

/-- The three ways a compaction can go. -/
theorem compactInner_cases {order : IterOrder} {force : Bool}
    {r : Except SstError CompactionStats × RawStore}
    (h : compactInner fmt s order force = some r) :
    ((s.inputs order).length < (if force then 1 else 2) ∧ (∃ stats, r = (.ok stats, s))) ∨
    ((∃ input ∈ s.inputs order, Refused fmt s input.2) ∧ ∃ e, r = (.error e, s)) ∨
    (¬ (s.inputs order).length < (if force then 1 else 2) ∧
      (¬ ∃ input ∈ s.inputs order, Refused fmt s input.2) ∧
      ∃ stats s', r = (.ok stats, s') ∧
        ∀ input ∈ s.inputs order, s'.files[input.2.path]? = none) := by
  rw [compactInner] at h
  by_cases few : (s.inputs order).length < if force then 1 else 2
  · rw [if_pos few] at h
    cases h
    exact Or.inl ⟨few, _, rfl⟩
  rw [if_neg few] at h
  cases read : readInputs fmt s (s.inputs order) with
  | none => simp [read] at h
  | some result =>
    cases result with
    | error e =>
      simp only [read, some.injEq] at h
      exact Or.inr (Or.inl ⟨(readInputs_error_iff read).mp ⟨e, rfl⟩, e, h.symm⟩)
    | ok rows =>
      simp only [read] at h
      obtain ⟨⟨done, s1⟩, committed, rfl⟩ := map_eq_some_iff.mp h
      have fine : done = .ok () := commitOutputs_ok committed
      subst fine
      refine Or.inr (Or.inr ⟨few, ?_, _, _, rfl, ?_⟩)
      · rw [← readInputs_error_iff read]
        exact nofun
      · intro input mem
        exact getElem?_foldl_erase mem

/-- With a block that cannot be read, the inputs are spared exactly when there is nothing to
merge or the block is refused. -/
theorem compact_spares_unread_iff {order : IterOrder} {force : Bool}
    {r : Except SstError CompactionStats × RawStore}
    (unread : ∃ input ∈ s.inputs order, ∃ be, Unread fmt s input.2 be)
    (h : compactInner fmt s order force = some r) :
    Spares fmt order s r ↔ (s.inputs order).length < (if force then 1 else 2) ∨
      ∃ input ∈ s.inputs order, Refused fmt s input.2 := by
  rcases compactInner_cases h with ⟨few, stats, rfl⟩ | ⟨refused, e, rfl⟩ |
    ⟨many, accepted, stats, s', rfl, gone⟩
  · refine iff_of_true ⟨?_, fun _ _ _ _ => rfl⟩ (Or.inl few)
    exact fun x hx => collect_subset hx
  · exact iff_of_true rfl (Or.inr refused)
  · refine iff_of_false ?_ (not_or.mpr ⟨many, accepted⟩)
    rintro ⟨_, spared⟩
    obtain ⟨input, mem, be, unread⟩ := unread
    have kept := spared input mem be unread
    rw [gone input mem] at kept
    exact accepted ⟨input, mem, by simp [Refused, ← kept]⟩

/-- Nonce, text and tag, without the cipher in between. -/
def taggedTde : TdeModule Bytes where
  encrypt nonce text := Bytes.toLe 32 nonce ++ text ++ List.replicate 32 0xAA
  decrypt data :=
    if data.length < 64 then none
    else if data.drop (data.length - 32) = List.replicate 32 0xAA then
      some ((data.take (data.length - 32)).drop 32)
    else none

def plainFormat : PaxFormat where
  xxh3 _ := 0
  zstdDecode := some
  serialize _ := []

/-- A directory with an encrypted file of one block under every number. -/
def encryptedDir (blocks : List Bytes) : RawStore where
  config := EngineConfig.default
  registry := ∅
  files := ExtTreeMap.ofList
    (blocks.zipIdx.map fun e => (e.2 + 1, fileBytes (encryptAll (some taggedTde) e.2 [e.1])))
      compare
  art := ArtIndex.new
  nextSstId := blocks.length + 1
  nextBlockId := 1
  pinSource := []
  columnar := []
  tde := none
  nonce := 0

/-- The directory opened in a new process, in which encryption is then enabled. -/
def reopened (blocks : List Bytes) : RawStore :=
  match (encryptedDir blocks).discover with
  | some (.ok s) => { s with tde := some taggedTde }
  | _ => encryptedDir blocks

/-- Two files that this engine has written, the second one damaged in its tag. -/
def damaged : RawStore :=
  { encryptedDir [] with
    registry := ExtTreeMap.ofList [(1, ⟨1, [⟨0, 67⟩], true⟩), (2, ⟨2, [⟨0, 67⟩], true⟩)] compare
    files := ExtTreeMap.ofList [(1, fileBytes [taggedTde.encrypt 0 [1, 2, 3]]),
        (2, fileBytes [(taggedTde.encrypt 1 [4, 5, 6]).set 66 0])] compare
    tde := some taggedTde }

/-- A file whose tag does not fit makes the compaction fail and change nothing. -/
theorem compact_spares_damaged : ∃ r, damaged.compact plainFormat .byId = some r ∧
    Spares plainFormat .byId damaged r := by
  have mem : (2, ⟨2, [⟨0, 67⟩], true⟩) ∈ damaged.inputs .byId := by decide +kernel
  have fails : ∃ be ∈ damaged.visited ⟨2, [⟨0, 67⟩], true⟩, ∃ e, (damaged.files[2]?).map
      (fun data => readBlock plainFormat damaged ⟨2, [⟨0, 67⟩], true⟩ data be) = some (.failed e) :=
    ⟨⟨0, 67⟩, by decide +kernel, .encryption, by decide +kernel⟩
  have refused : Refused plainFormat damaged ⟨2, [⟨0, 67⟩], true⟩ := by
    obtain ⟨be, visited, e, failed⟩ := fails
    obtain ⟨data, found, failed⟩ := map_eq_some_iff.mp failed
    simp only [Refused, found]
    exact ⟨be, visited, e, failed⟩
  have unread : Unread plainFormat damaged ⟨2, [⟨0, 67⟩], true⟩ ⟨0, 67⟩ :=
    ⟨Or.inl List.mem_cons_self, fun both => both.2 (by decide +kernel)⟩
  obtain ⟨r, h⟩ := isSome_iff_exists.mp
    (show (damaged.compact plainFormat .byId).isSome = true by decide +kernel)
  exact ⟨r, h, (compact_spares_unread_iff ⟨_, mem, _, unread⟩ h).mpr (Or.inr ⟨_, mem, refused⟩)⟩

/-- After a restart the encrypted files count as plain ones. A compaction reads none of their
blocks, reports success and removes them. -/
theorem compact_unlinks_encrypted_files :
    ∃ r, (reopened [[1, 2, 3], [4, 5, 6]]).compact plainFormat .byId = some r ∧
      r.1.toOption = some ⟨2, 0, 0, 0⟩ ∧ r.2.files.toList = [] ∧
      (∃ input ∈ (reopened [[1, 2, 3], [4, 5, 6]]).inputs .byId, ∃ be,
        Unread plainFormat (reopened [[1, 2, 3], [4, 5, 6]]) input.2 be) ∧
      ¬ Spares plainFormat .byId (reopened [[1, 2, 3], [4, 5, 6]]) r := by
  have mem : (1, ⟨1, [⟨0, 67⟩], false⟩) ∈
      (reopened [[1, 2, 3], [4, 5, 6]]).inputs .byId := by decide +kernel
  have unread : Unread plainFormat (reopened [[1, 2, 3], [4, 5, 6]])
      ⟨1, [⟨0, 67⟩], false⟩ ⟨0, 67⟩ :=
    ⟨Or.inl List.mem_cons_self, fun both => both.2 (by decide +kernel)⟩
  have there : (reopened [[1, 2, 3], [4, 5, 6]]).files[1]?.isSome = true := by decide +kernel
  obtain ⟨r, h⟩ := isSome_iff_exists.mp (show ((reopened [[1, 2, 3], [4, 5, 6]]).compact
    plainFormat .byId).isSome = true by decide +kernel)
  have outcome : ((reopened [[1, 2, 3], [4, 5, 6]]).compact plainFormat .byId).map
      (fun r => (r.1.toOption, r.2.files.toList, r.2.files[1]?)) =
        some (some ⟨2, 0, 0, 0⟩, [], none) := by decide +kernel
  rw [h, map_some, some.injEq, Prod.mk.injEq, Prod.mk.injEq] at outcome
  obtain ⟨done, empty, gone⟩ := outcome
  refine ⟨r, h, done, empty, ⟨_, mem, _, unread⟩, ?_⟩
  obtain ⟨result, s'⟩ := r
  cases result with
  | error e => cases done
  | ok stats =>
    rintro ⟨_, spared⟩
    rw [spared _ mem _ unread] at gone
    rw [gone] at there
    cases there

end Unread

end RawStore

end GalaxDb
