import GalaxDb.Lib.Bytes

/-!
# Block index and footer of an SST file

Behind its blocks a file lists where each of them starts and how long it is; a footer of
fixed size says where the list begins. Integers wrap as they do in a release build. No
result is a slice out of range.
-/

namespace GalaxDb

open List

/-- The errors that a file or a block of it is refused with. -/
inductive SstError where
  | io
  | formatTooOld (artifact : String) (found minReadable : Nat)
  | formatTooNew (artifact : String) (found current : Nat)
  | encryption
  | internal (message : String)
  | magicMismatch (got : Nat)
  deriving DecidableEq

/-- A footer of another release: such a file is refused, not read as something else. -/
def SstError.isFormat : SstError → Bool
  | .formatTooOld _ _ _ => true
  | .formatTooNew _ _ _ => true
  | _ => false

structure BlockIndexEntry where
  fileOffset : Nat
  blockLen : Nat
  deriving DecidableEq

abbrev SstBlockIndex := List BlockIndexEntry

namespace SstBlockIndex

def footerMagic : Nat := 0x53535446
def footerMagicV2 : Nat := 0x53535456
def footerSize : Nat := 16
def footerSizeV2 : Nat := 18
def minReadable : Nat := 1
def currentWrite : Nat := 1

def getBlock (index : SstBlockIndex) (block : Nat) : Option BlockIndexEntry := index[block]?

/-- The bytes of a file between two positions. -/
def slice (data : Bytes) (start stop : Nat) : Bytes := (data.take stop).drop start

def serializeEntry (entry : BlockIndexEntry) : Bytes :=
  Bytes.toLe 8 entry.fileOffset ++ Bytes.toLe 4 entry.blockLen

def serializeWithFooter (index : SstBlockIndex) (indexOffset : Nat) : Bytes :=
  Bytes.toLe 4 index.length ++ index.flatMap serializeEntry ++
    (Bytes.toLe 8 indexOffset ++ Bytes.toLe 4 index.length ++ Bytes.toLe 2 currentWrite ++
      Bytes.toLe 4 footerMagicV2)

def checkVersion (found : Nat) : Except SstError Unit :=
  if found < minReadable then .error (.formatTooOld "SST" found minReadable)
  else if currentWrite < found then .error (.formatTooNew "SST" found currentWrite)
  else .ok ()

/-- Where the index starts, how many blocks it lists and how long the footer is. -/
def parseFooter (data : Bytes) : Except SstError (Nat × Nat × Nat) :=
  let stop := data.length
  if stop < footerSize then .error (.internal "SST file too small for footer")
  else
    let trailingMagic := Bytes.ofLe (slice data (stop - 4) stop)
    if trailingMagic = footerMagicV2 then
      if stop < footerSizeV2 then .error (.internal "SST file too small for versioned footer")
      else
        let fs := stop - footerSizeV2
        match checkVersion (Bytes.ofLe (slice data (fs + 12) (fs + 14))) with
        | .error e => .error e
        | .ok () => .ok (Bytes.ofLe (slice data fs (fs + 8)),
            Bytes.ofLe (slice data (fs + 8) (fs + 12)), footerSizeV2)
    else if trailingMagic = footerMagic then
      let fs := stop - footerSize
      .ok (Bytes.ofLe (slice data fs (fs + 8)), Bytes.ofLe (slice data (fs + 8) (fs + 12)),
        footerSize)
    else .error (.magicMismatch trailingMagic)

/-- The entries from a position on, each inside the part before the footer. -/
def readEntries (data : Bytes) (footerStart : Nat) :
    Nat → Nat → Option (Except SstError SstBlockIndex)
  | _, 0 => some (.ok [])
  | offset, count + 1 =>
    if footerStart < (offset + 12) % 2 ^ 64 then
      some (.error (.internal "block index extends into footer"))
    else if data.length < offset + 12 then none
    else (readEntries data footerStart (offset + 12) count).map fun rest =>
      rest.map fun index =>
        ⟨Bytes.ofLe (slice data offset (offset + 8)),
          Bytes.ofLe (slice data (offset + 8) (offset + 12))⟩ :: index

def fromFileData (data : Bytes) : Option (Except SstError SstBlockIndex) :=
  match parseFooter data with
  | .error e => some (.error e)
  | .ok (indexOffset, blockCount, footerLen) =>
    -- the count in front of the entries is skipped, the one of the footer counts
    readEntries data (data.length - footerLen) ((indexOffset + 4) % 2 ^ 64) blockCount

/-- A file without a readable footer is one block from its first byte to its last. -/
def wholeFile (data : Bytes) : SstBlockIndex := [⟨0, data.length % 2 ^ 32⟩]

theorem length_serializeEntry (entry : BlockIndexEntry) : (serializeEntry entry).length = 12 := by
  simp [serializeEntry]

theorem length_entries (index : SstBlockIndex) :
    (index.flatMap serializeEntry).length = 12 * index.length := by
  induction index with
  | nil => rfl
  | cons entry rest ih =>
    rw [flatMap_cons, length_append, length_serializeEntry, ih, length_cons]
    omega

/-- What stands behind a known number of bytes. -/
theorem slice_append {pre mid post : Bytes} {start stop : Nat} (hs : start = pre.length)
    (he : stop = pre.length + mid.length) : slice (pre ++ mid ++ post) start stop = mid := by
  subst hs he
  rw [slice, append_assoc, take_length_add_append, drop_left, take_left]

/-- The footer that is written is read back, up to the width of its fields. -/
theorem parseFooter_append (body : Bytes) (index : SstBlockIndex) (indexOffset : Nat) :
    parseFooter (body ++ index.serializeWithFooter indexOffset) =
      .ok (indexOffset % 2 ^ 64, index.length % 2 ^ 32, footerSizeV2) := by
  generalize hpre : body ++ (Bytes.toLe 4 index.length ++ index.flatMap serializeEntry) = pre
  have split : body ++ index.serializeWithFooter indexOffset = pre ++ (Bytes.toLe 8 indexOffset ++
      Bytes.toLe 4 index.length ++ Bytes.toLe 2 currentWrite ++ Bytes.toLe 4 footerMagicV2) := by
    rw [← hpre, serializeWithFooter]
    simp only [append_assoc]
  have len : (body ++ index.serializeWithFooter indexOffset).length = pre.length + 18 := by
    rw [split]
    simp
  have magic : slice (body ++ index.serializeWithFooter indexOffset) (pre.length + 14)
      (pre.length + 18) = Bytes.toLe 4 footerMagicV2 := by
    rw [split, ← append_assoc, ← append_nil (_ ++ Bytes.toLe 4 footerMagicV2)]
    exact slice_append (by simp) (by simp)
  have version : slice (body ++ index.serializeWithFooter indexOffset) (pre.length + 12)
      (pre.length + 14) = Bytes.toLe 2 currentWrite := by
    rw [split, ← append_assoc, ← append_assoc]
    exact slice_append (by simp) (by simp)
  have count : slice (body ++ index.serializeWithFooter indexOffset) (pre.length + 8)
      (pre.length + 12) = Bytes.toLe 4 index.length := by
    rw [split, append_assoc, append_assoc, ← append_assoc, ← append_assoc]
    exact slice_append (by simp) (by simp)
  have offset : slice (body ++ index.serializeWithFooter indexOffset) pre.length
      (pre.length + 8) = Bytes.toLe 8 indexOffset := by
    rw [split, append_assoc, append_assoc, ← append_assoc]
    exact slice_append rfl (by simp)
  have long : ¬ pre.length + 18 < footerSize := by simp [footerSize]
  have longV2 : ¬ pre.length + 18 < footerSizeV2 := by simp [footerSizeV2]
  have start : pre.length + 18 - footerSizeV2 = pre.length := by simp [footerSizeV2]
  simp only [parseFooter, len, if_neg long, if_neg longV2, start,
    show pre.length + 18 - 4 = pre.length + 14 by omega, magic, version, count, offset,
    Bytes.ofLe_toLe]
  rfl

/-- A footer that this release has written is not refused for its format. -/
theorem fromFileData_append_not_format {body : Bytes} {index : SstBlockIndex} {indexOffset : Nat}
    {e : SstError} (h : fromFileData (body ++ index.serializeWithFooter indexOffset) =
      some (.error e)) : e.isFormat = false := by
  have entries : ∀ (data : Bytes) (footerStart offset count : Nat) (e : SstError),
      readEntries data footerStart offset count = some (.error e) → e.isFormat = false := by
    intro data footerStart offset count
    induction count generalizing offset with
    | zero => exact nofun
    | succ count ih =>
      intro e h
      rw [readEntries] at h
      split at h
      · cases h
        rfl
      split at h
      · cases h
      obtain ⟨rest, tail, eq⟩ := Option.map_eq_some_iff.mp h
      cases rest with
      | error e' =>
        cases eq
        exact ih _ _ tail
      | ok index => cases eq
  rw [fromFileData, parseFooter_append] at h
  exact entries _ _ _ _ _ h

/-- Entries behind any bytes are read back, as far as they fit the width of their fields. -/
theorem readEntries_append {pre post : Bytes} {footerStart : Nat} {index : SstBlockIndex}
    (fits : ∀ entry ∈ index, entry.fileOffset < 2 ^ 64 ∧ entry.blockLen < 2 ^ 32)
    (inside : pre.length + 12 * index.length ≤ footerStart)
    (small : pre.length + 12 * index.length < 2 ^ 64) :
    readEntries (pre ++ index.flatMap serializeEntry ++ post) footerStart pre.length
      index.length = some (.ok index) := by
  induction index generalizing pre with
  | nil => rfl
  | cons entry rest ih =>
    obtain ⟨here, later⟩ := forall_mem_cons.mp fits
    simp only [length_cons] at inside small
    have next : pre ++ (entry :: rest).flatMap serializeEntry ++ post =
        (pre ++ serializeEntry entry) ++ rest.flatMap serializeEntry ++ post := by
      simp only [flatMap_cons, append_assoc]
    have length : (pre ++ serializeEntry entry).length = pre.length + 12 := by
      rw [length_append, length_serializeEntry]
    have tail := @ih (pre ++ serializeEntry entry) later (by omega) (by omega)
    rw [length] at tail
    have offset : slice (pre ++ (entry :: rest).flatMap serializeEntry ++ post) pre.length
        (pre.length + 8) = Bytes.toLe 8 entry.fileOffset := by
      rw [next, serializeEntry, ← append_assoc, append_assoc _ _ post,
        append_assoc _ (Bytes.toLe 4 entry.blockLen)]
      exact slice_append rfl (by simp)
    have blockLen : slice (pre ++ (entry :: rest).flatMap serializeEntry ++ post)
        (pre.length + 8) (pre.length + 12) = Bytes.toLe 4 entry.blockLen := by
      rw [next, serializeEntry, ← append_assoc, append_assoc _ _ post]
      exact slice_append (by simp) (by simp)
    rw [length_cons, readEntries, Nat.mod_eq_of_lt (by omega), if_neg (by omega),
      if_neg (by simp [length_serializeEntry]), offset, blockLen,
      Bytes.ofLe_toLe_of_lt here.1, Bytes.ofLe_toLe_of_lt here.2, next, tail]
    rfl

end SstBlockIndex

end GalaxDb
