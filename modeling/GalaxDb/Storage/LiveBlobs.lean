import GalaxDb.Lib.Run
import GalaxDb.Storage.BlobLog

/-!
# Values of the blob log that are in use

A reference keeps naming its entry as long as the file of the entry only grows. A collection
removes files, so a value stays readable under the reference that its write returned where no
file that is collected has a value in use, and where nobody writes through the handle of a
removed file.
-/

namespace GalaxDb

open Bytes List Option

namespace BlobLog

variable {x : Xxh3}

section Entries

variable {value hash : Bytes} {r : BlobRef}

variable {after : Bytes}

theorem take_drop_append {before field : Bytes} {start width : Nat}
    (at_start : before.length = start) (wide : field.length = width) :
    ((before ++ (field ++ after)).drop start).take width = field := by
  subst at_start wide
  rw [drop_left, take_left]

theorem length_contentHash (data : Bytes) : (contentHash x data).length = contentHashSize :=
  toLe_length _ _

/-- The fields of a reference that its encoding keeps. -/
def BlobRef.Encodable (r : BlobRef) : Prop :=
  r.fileId < 2 ^ 64 ∧ r.offset < 2 ^ 64 ∧ r.length < 2 ^ 32

theorem fromBytes_toBytes (fits : r.Encodable) : BlobRef.fromBytes r.toBytes = some r := by
  obtain ⟨file, offset, length⟩ := fits
  have first : r.toBytes.take 8 = toLe 8 r.fileId := by
    exact take_left' (toLe_length _ _)
  have second : (r.toBytes.drop 8).take 8 = toLe 8 r.offset := by
    exact take_drop_append (toLe_length _ _) (toLe_length _ _)
  have third : (r.toBytes.drop 16).take 4 = toLe 4 r.length := by
    exact take_drop_append (by simp) (toLe_length _ _)
  have enough : ¬ r.toBytes.length < blobRefSize := by simp [BlobRef.toBytes, blobRefSize]
  rw [BlobRef.fromBytes, if_neg enough, first, second, third, ofLe_toLe_of_lt file,
    ofLe_toLe_of_lt offset, ofLe_toLe_of_lt length]

theorem decode_encode (fits : r.Encodable) (length : hash.length = contentHashSize) :
    decodeBlobRef (encodeBlobRef hash r) = some (hash, r) := by
  have whole : (encodeBlobRef hash r).length = blobMarkerSize := by
    simp [encodeBlobRef, BlobRef.toBytes, length, blobMarkerSize, blobRefSize]
    omega
  have tail : (encodeBlobRef hash r).drop (1 + contentHashSize) = r.toBytes := by
    rw [encodeBlobRef, cons_append, Nat.add_comm, drop_succ_cons, ← length, drop_left]
  have front : ((encodeBlobRef hash r).drop 1).take contentHashSize = hash := by
    rw [encodeBlobRef, cons_append, drop_succ_cons, drop_zero, ← length, take_left]
  rw [decodeBlobRef, if_neg (not_not.mpr whole), if_neg (by simp [encodeBlobRef]), tail, front,
    fromBytes_toBytes fits]
  rfl

theorem readHeader_entryHeader {n : Nat} (short : n < 2 ^ 32)
    (length : hash.length = contentHashSize) :
    readHeader (entryHeader n hash ++ after) = .ok (headerSizeV2, n) := by
  have size : (entryHeader n hash).length = headerSizeV2 := by
    simp [entryHeader, length, contentHashSize, headerSizeV2]
  have enough : ¬ (entryHeader n hash ++ after).length < headerSizeV2 := by
    rw [length_append, size]
    omega
  have magic : (entryHeader n hash ++ after).take 4 = toLe 4 blobEntryMagicV2 := by
    exact take_left' (toLe_length _ _)
  have version : ((entryHeader n hash ++ after).drop 4).take 2 = toLe 2 currentWrite := by
    exact take_drop_append (toLe_length _ _) (toLe_length _ _)
  have field : ((entryHeader n hash ++ after).drop 6).take 4 = toLe 4 n := by
    rw [entryHeader, append_assoc, append_assoc]
    exact take_drop_append (by simp) (toLe_length _ _)
  have four : ¬ (entryHeader n hash ++ after).length < 4 := by
    simp only [headerSizeV2] at enough
    omega
  have known : ofLe (toLe 4 blobEntryMagicV2) = blobEntryMagicV2 := ofLe_toLe_of_lt (by decide)
  have count : ofLe (toLe 4 n) = n := ofLe_toLe_of_lt short
  rw [readHeader, if_neg four, magic, version, field, known, count]
  simp only [↓reduceIte, enough]
  rfl

/-- An entry is read back, whatever follows it. -/
theorem readEntry_entryBytes (short : value.length < 2 ^ 32)
    (length : hash.length = contentHashSize) :
    readEntry x (entryBytes x value hash ++ after) value.length = .ok value := by
  have size : (entryHeader value.length hash).length = headerSizeV2 := by
    simp [entryHeader, length, contentHashSize, headerSizeV2]
  have whole : entryBytes x value hash ++ after = entryHeader value.length hash ++ (value ++
      (toLe 8 (x.xxh3_64 (entryHeader value.length hash ++ value)).toNat ++ after)) := by
    rw [entryBytes, Nat.mod_eq_of_lt short]
    simp only [append_assoc]
  have covered : (entryBytes x value hash ++ after).take (headerSizeV2 + value.length) =
      entryHeader value.length hash ++ value := by
    rw [whole, ← append_assoc]
    exact take_left' (by rw [length_append, size])
  have checksum : ((entryBytes x value hash ++ after).drop
      (headerSizeV2 + value.length)).take footerSize =
        toLe 8 (x.xxh3_64 (entryHeader value.length hash ++ value)).toNat := by
    rw [whole, ← append_assoc]
    exact take_drop_append (by rw [length_append, size]) (toLe_length _ _)
  have inside : ((entryBytes x value hash ++ after).drop headerSizeV2).take value.length =
      value := by
    rw [whole]
    exact take_drop_append size rfl
  have enough : ¬ (entryBytes x value hash ++ after).length <
      headerSizeV2 + value.length + footerSize := by
    rw [whole]
    simp only [length_append, size, toLe_length, footerSize]
    omega
  have sealed : ofLe (toLe 8 (x.xxh3_64 (entryHeader value.length hash ++ value)).toNat) =
      (x.xxh3_64 (entryHeader value.length hash ++ value)).toNat :=
    ofLe_toLe_of_lt (UInt64.toNat_lt _)
  have header : readHeader (entryBytes x value hash ++ after) =
      .ok (headerSizeV2, value.length) := by
    rw [whole]
    exact readHeader_entryHeader short length
  rw [readEntry, header]
  simp only [ne_eq, not_true_eq_false, ↓reduceIte, enough, checksum, covered, sealed, inside]

end Entries

section Stored

variable {dir : BlobDir} {r : BlobRef} {value : Bytes}

/-- The entry of the value is where the reference says, and the reference can be encoded. -/
structure Stored (x : Xxh3) (dir : BlobDir) (r : BlobRef) (value : Bytes) : Prop where
  entry : ∃ before after, dir[r.fileId]? =
      some (before ++ (entryBytes x value (contentHash x value) ++ after)) ∧
    before.length = r.offset
  length : r.length = value.length
  encodable : r.Encodable

theorem Stored.read (stored : Stored x dir r value) : read x dir r = .ok value := by
  obtain ⟨before, after, file, offset⟩ := stored.entry
  have short := stored.encodable.2.2
  rw [stored.length] at short
  rw [BlobLog.read, file]
  simp only [← offset, drop_left, stored.length]
  exact readEntry_entryBytes short (length_contentHash value)

/-- Files may grow and others may come and go. -/
theorem Stored.mono {dir' : BlobDir} (stored : Stored x dir r value)
    (grown : ∀ data, dir[r.fileId]? = some data → ∃ more, dir'[r.fileId]? = some (data ++ more)) :
    Stored x dir' r value := by
  obtain ⟨before, after, file, offset⟩ := stored.entry
  obtain ⟨more, later⟩ := grown _ file
  refine ⟨⟨before, after ++ more, ?_, offset⟩, stored.length, stored.encodable⟩
  rw [later, append_assoc, append_assoc]

variable {bytes : Bytes} {fileId : Nat}

theorem getElem?_appendFile (k : Nat) : (appendFile dir fileId bytes)[k]? =
      if k = fileId then (dir[k]?).map (· ++ bytes) else dir[k]? := by
  rw [appendFile]
  by_cases here : k = fileId
  · subst here
    cases found : dir[k]? with
    | none => simp [found]
    | some data => simp
  · cases dir[fileId]? with
    | none => simp [here]
    | some data => simp [Std.ExtTreeMap.getElem?_insert, here, Ne.symm here]

theorem grown_appendFile {data : Bytes} {k : Nat} (before : dir[k]? = some data) :
    ∃ more, (appendFile dir fileId bytes)[k]? = some (data ++ more) := by
  rw [getElem?_appendFile, before]
  split
  · exact ⟨_, rfl⟩
  · exact ⟨[], by simp⟩

/-- A writer at the end of its file puts the entry where its reference says. -/
theorem stored_writeValue {writer : BlobWriter} {data : Bytes} (short : value.length < 2 ^ 32)
    (file : writer.fileId < 2 ^ 64) (room : writer.offset < 2 ^ 64)
    (found : dir[writer.fileId]? = some data) (ends : writer.offset = data.length) :
    Stored x (writer.writeValue x dir value (contentHash x value)).1
      (writer.writeValue x dir value (contentHash x value)).2.2 value := by
  refine ⟨⟨data, [], ?_, ends.symm⟩, Nat.mod_eq_of_lt short, file, room, Nat.mod_lt _ (by decide)⟩
  change (appendFile _ _ _)[writer.fileId]? = _
  rw [getElem?_appendFile, if_pos rfl, found, append_nil]
  rfl

end Stored

section Sessions

/-- What a write returned for a value. -/
structure Occurrence where
  hash : Bytes
  ref : BlobRef
  value : Bytes
  deriving DecidableEq

/-- A blob log, and the occurrences of values that were not marked dead. -/
structure Session where
  log : Log
  inUse : List Occurrence

inductive Action where
  | write (value : Bytes)
  | markDead (ref : BlobRef)
  | runGc (order : GcOrder)
  | reopen (numQueues : UInt64)

open BlobLog.Action

def step (x : Xxh3) (s : Session) : Action → Option Session
  | .write value =>
    let result := s.log.write x value
    some ⟨result.1, s.inUse ++ [⟨result.2.1, result.2.2, value⟩]⟩
  | .markDead ref => some ⟨s.log.markDead ref, s.inUse.eraseP (·.ref = ref)⟩
  | .runGc order => some { s with log := (s.log.runGc x order).1 }
  | .reopen numQueues => some { s with log := Log.new s.log.dir numQueues }

/-- A log opened in a directory, before any write. -/
def Session.start (dir : BlobDir) (numQueues : UInt64) : Session := ⟨Log.new dir numQueues, []⟩

/-- Each value in use is read under the reference that its write returned. -/
def Readable (x : Xxh3) (s : Session) : Prop :=
  ∀ o ∈ s.inUse, s.log.readTransparent x (encodeBlobRef o.hash o.ref) = .ok o.value

/-- The writer whose turn it is. -/
def Log.turn (log : Log) : BlobWriter :=
  log.writers.getD (log.nextWriter % log.writers.length) ⟨log.nextWriter % log.writers.length, 0⟩

/-- No file that is collected has a value in use. What is appended fits the fields of a
reference, and its file was not removed. -/
def Keeps (x : Xxh3) (s : Session) : Action → Prop
  | .write value => s.log.index[contentHash x value]? = none →
    value.length < 2 ^ 32 ∧ s.log.turn.fileId ∈ s.log.dir ∧ s.log.turn.offset < 2 ^ 64
  | .runGc _ => ∀ stats ∈ s.log.collectFileStats, stats.needsGc →
    ∀ o ∈ s.inUse, o.ref.fileId ≠ stats.fileId
  | _ => True

instance (s : Session) : (a : Action) → Decidable (Keeps x s a)
  | .write value => inferInstanceAs (Decidable (s.log.index[contentHash x value]? = none →
      value.length < 2 ^ 32 ∧ s.log.turn.fileId ∈ s.log.dir ∧ s.log.turn.offset < 2 ^ 64))
  | .runGc _ => inferInstanceAs (Decidable (∀ stats ∈ s.log.collectFileStats, stats.needsGc →
      ∀ o ∈ s.inUse, o.ref.fileId ≠ stats.fileId))
  | .markDead _ => isTrue trivial
  | .reopen _ => isTrue trivial

/-- Values in use and indexed ones are where their references say, a count is of values in use,
and the writers stand at the end of their files. -/
structure Inv (x : Xxh3) (values : List Bytes) (s : Session) : Prop where
  inUse : ∀ o ∈ s.inUse, Stored x s.log.dir o.ref o.value ∧ o.hash = contentHash x o.value
  index : ∀ hash r, s.log.index[hash]? = some r →
    ∃ value ∈ values, contentHash x value = hash ∧ Stored x s.log.dir r value
  live : ∀ r count, s.log.liveRefs.lookup r = some count → count ≤ s.inUse.countP fun o => o.ref = r
  writers : ∀ (i : Nat) (w : BlobWriter), s.log.writers[i]? = some w → w.fileId = i ∧
    ∀ data : Bytes, s.log.dir[i]? = some data → w.offset = data.length
  queues : 0 < s.log.writers.length ∧ s.log.writers.length ≤ 2 ^ 64

theorem Log.getElem?_turn (log : Log) (queues : 0 < log.writers.length) :
    log.writers[log.nextWriter % log.writers.length]? = some log.turn := by
  rw [Log.turn, getD_eq_getElem?_getD, getElem?_eq_getElem (Nat.mod_lt _ queues)]
  rfl

variable {values : List Bytes} {s s' : Session} {dir : BlobDir}

theorem Inv.readable (inv : Inv x values s) : Readable x s := by
  intro o mem
  obtain ⟨stored, hash⟩ := inv.inUse o mem
  rw [Log.readTransparent, decode_encode stored.encodable (hash ▸ length_contentHash o.value)]
  exact stored.read

theorem new_spec (fileId : Nat) : (∀ (k : Nat) (data : Bytes), dir[k]? = some data →
        (BlobWriter.new dir fileId).1[k]? = some data) ∧
      (BlobWriter.new dir fileId).2.fileId = fileId ∧
      ∃ data, (BlobWriter.new dir fileId).1[fileId]? = some data ∧
        (BlobWriter.new dir fileId).2.offset = data.length := by
  rw [BlobWriter.new]
  cases found : dir[fileId]? with
  | some data => exact ⟨fun _ _ => id, rfl, data, found, rfl⟩
  | none =>
    refine ⟨fun k data there => ?_, rfl, [], by simp, rfl⟩
    have other : fileId ≠ k := by
      rintro rfl
      simp [there] at found
    simp [Std.ExtTreeMap.getElem?_insert, other, there]

/-- Opening writers creates empty files and changes no file. -/
theorem openWriters_spec {ids : List Nat} : (∀ (k : Nat) (data : Bytes), dir[k]? = some data →
        (openWriters dir ids).1[k]? = some data) ∧
      (openWriters dir ids).2.length = ids.length ∧
      ∀ (i : Nat) (w : BlobWriter), (openWriters dir ids).2[i]? = some w →
        ids[i]? = some w.fileId ∧ ∃ data, (openWriters dir ids).1[w.fileId]? = some data ∧
          w.offset = data.length := by
  induction ids generalizing dir with
  | nil => simp [openWriters]
  | cons fileId rest ih =>
    obtain ⟨kept, same, data, found, offset⟩ := @new_spec dir fileId
    obtain ⟨later, length, each⟩ := @ih (BlobWriter.new dir fileId).1
    refine ⟨fun k data there => later k data (kept k data there), ?_, fun i w at_i => ?_⟩
    · simp [openWriters, length]
    · cases i with
      | zero =>
        obtain rfl := some.inj at_i
        rw [same]
        exact ⟨rfl, data, later fileId data found, offset⟩
      | succ i => exact each i w at_i

theorem queueCount (numQueues : UInt64) :
    0 < (if numQueues = 0 then defaultNumQueues else numQueues.toNat) ∧
      (if numQueues = 0 then defaultNumQueues else numQueues.toNat) ≤ 2 ^ 64 := by
  split
  · decide
  · next some_queue =>
    have below := numQueues.toNat_lt
    have positive : numQueues.toNat ≠ 0 := fun zero => some_queue (UInt64.toNat_inj.mp zero)
    omega

theorem inv_new (inUse : ∀ o ∈ s.inUse, Stored x dir o.ref o.value ∧
    o.hash = contentHash x o.value) (numQueues : UInt64) :
    Inv x values ⟨Log.new dir numQueues, s.inUse⟩ := by
  obtain ⟨kept, length, each⟩ := @openWriters_spec dir
    (List.range (if numQueues = 0 then defaultNumQueues else numQueues.toNat))
  constructor
  · intro o mem
    obtain ⟨stored, hash⟩ := inUse o mem
    refine ⟨stored.mono fun data found => ⟨[], ?_⟩, hash⟩
    rw [append_nil]
    exact kept _ data found
  · intro hash r found
    simp [Log.new] at found
  · intro r count found
    simp [Log.new] at found
  · intro i w at_i
    obtain ⟨at_id, data, found, offset⟩ := each i w at_i
    have same : w.fileId = i := by
      obtain ⟨_, eq⟩ := List.getElem?_eq_some_iff.mp at_id
      simpa using eq.symm
    subst same
    refine ⟨rfl, fun data' found' => ?_⟩
    rw [offset, some.inj (found.symm.trans found')]
  · rw [Log.new, length, length_range]
    exact queueCount numQueues

theorem lookup_increment (live : LiveRefs) (r r' : BlobRef) : (increment live r).lookup r' =
      if r' = r then some ((live.lookup r).getD 0 + 1) else live.lookup r' := by
  rw [increment]
  split
  · next same => rw [same, AList.lookup_insert]
  · next other => rw [AList.lookup_insert_ne other]

/-- One more occurrence of the reference makes up for a count that is one higher. -/
theorem live_increment {inUse : List Occurrence} {live : LiveRefs} {o : Occurrence}
    (counted : ∀ r count, live.lookup r = some count → count ≤ inUse.countP fun o => o.ref = r)
    {r : BlobRef} {count : Nat} (found : (increment live o.ref).lookup r = some count) :
    count ≤ (inUse ++ [o]).countP fun o => o.ref = r := by
  rw [lookup_increment] at found
  rw [countP_append]
  split at found
  · next same =>
    subst same
    obtain rfl := some.inj found
    have one : [o].countP (fun o' => o'.ref = o.ref) = 1 := by simp
    rw [one]
    cases before : live.lookup o.ref with
    | none => simp
    | some count => exact Nat.succ_le_succ (counted _ _ before)
  · exact Nat.le_add_right_of_le (counted r count found)

/-- A write keeps the live blobs readable. -/
theorem Inv.write (inv : Inv x values s) {value : Bytes} (known : value ∈ values)
    (collisionFree : ∀ u ∈ values, contentHash x u = contentHash x value → u = value)
    (keeps : Keeps x s (.write value)) (next : step x s (.write value) = some s') :
    Inv x values s' := by
  rw [step, Log.write] at next
  cases indexed : s.log.index[contentHash x value]? with
  | some existing =>
    simp only [indexed] at next
    obtain rfl := some.inj next
    obtain ⟨u, at_u, same, stored⟩ := inv.index _ _ indexed
    obtain rfl := collisionFree u at_u same
    refine ⟨fun o mem => ?_, inv.index, fun r count found => ?_, inv.writers, inv.queues⟩
    · obtain old | new := mem_append.mp mem
      · exact inv.inUse o old
      · obtain rfl := mem_singleton.mp new
        exact ⟨stored, rfl⟩
    · exact live_increment inv.live found
  | none =>
    simp only [indexed] at next
    obtain rfl := some.inj next
    obtain ⟨short, there, room⟩ := keeps indexed
    have turn_lt := Nat.mod_lt s.log.nextWriter inv.queues.1
    have at_turn := s.log.getElem?_turn inv.queues.1
    obtain ⟨own, ends⟩ := inv.writers _ _ at_turn
    obtain ⟨data, found⟩ := isSome_iff_exists.mp
      (Std.ExtTreeMap.isSome_getElem?_iff_mem.mpr there)
    have offset := ends data (own ▸ found)
    have grown (k : Nat) (data : Bytes) (before : s.log.dir[k]? = some data) :
        ∃ more, (appendFile s.log.dir s.log.turn.fileId
          (entryBytes x value (contentHash x value)))[k]? = some (data ++ more) :=
      grown_appendFile before
    have stored : Stored x (appendFile s.log.dir s.log.turn.fileId
        (entryBytes x value (contentHash x value)))
          ⟨s.log.turn.fileId, s.log.turn.offset, value.length % 2 ^ 32⟩ value :=
      stored_writeValue short (lt_of_lt_of_le (own ▸ turn_lt) inv.queues.2) room found offset
    refine ⟨fun o mem => ?_, fun hash r at_hash => ?_, fun r count found => ?_, fun i w at_i => ?_,
      ?_⟩
    · obtain old | new := mem_append.mp mem
      · obtain ⟨before, hash⟩ := inv.inUse o old
        exact ⟨before.mono fun data => grown _ data, hash⟩
      · obtain rfl := mem_singleton.mp new
        exact ⟨stored, rfl⟩
    · rw [Std.ExtTreeMap.getElem?_insert] at at_hash
      split at at_hash
      · next same =>
        obtain rfl := some.inj at_hash
        exact ⟨value, known, Std.LawfulEqCmp.compare_eq_iff_eq.mp same, stored⟩
      · obtain ⟨u, at_u, same, before⟩ := inv.index hash r at_hash
        exact ⟨u, at_u, same, before.mono fun data => grown _ data⟩
    · exact live_increment inv.live found
    · by_cases here : s.log.nextWriter % s.log.writers.length = i
      · subst here
        rw [getElem?_set_self turn_lt] at at_i
        obtain rfl := some.inj at_i
        refine ⟨own, fun later at_file => ?_⟩
        change (appendFile s.log.dir s.log.turn.fileId _)[_]? = _ at at_file
        rw [getElem?_appendFile, if_pos own.symm, ← own, found] at at_file
        obtain rfl := some.inj at_file
        change s.log.turn.offset + _ = _
        rw [length_append, offset]
      · rw [getElem?_set_ne here] at at_i
        obtain ⟨id, ends⟩ := inv.writers i w at_i
        refine ⟨id, fun later at_file => ends later ?_⟩
        change (appendFile s.log.dir s.log.turn.fileId _)[_]? = _ at at_file
        rwa [getElem?_appendFile, if_neg (own ▸ Ne.symm here)] at at_file
    · simpa using inv.queues

theorem countP_eraseP (inUse : List Occurrence) (r r' : BlobRef) :
    inUse.countP (fun o => o.ref = r') - (if r' = r then 1 else 0) ≤
      (inUse.eraseP (·.ref = r)).countP fun o => o.ref = r' := by
  induction inUse with
  | nil => simp
  | cons o inUse ih =>
    by_cases here : o.ref = r
    · subst here
      by_cases same : o.ref = r'
      · simp [same]
      · simp [same, Ne.symm same]
    · rw [eraseP_cons_of_neg (by simpa using here), countP_cons, countP_cons]
      omega

/-- Only the counts change. -/
theorem Log.markDead_spec (log : Log) (r : BlobRef) : (log.markDead r).dir = log.dir ∧
    (log.markDead r).index = log.index ∧ (log.markDead r).writers = log.writers := by
  rw [Log.markDead]
  split <;> exact ⟨rfl, rfl, rfl⟩

/-- A dead blob leaves the others readable. -/
theorem Inv.markDead (inv : Inv x values s) (r : BlobRef) :
    Inv x values ⟨s.log.markDead r, s.inUse.eraseP (·.ref = r)⟩ := by
  have live : ∀ r' count, (s.log.markDead r).liveRefs.lookup r' = some count →
      count ≤ (s.inUse.eraseP (·.ref = r)).countP fun o => o.ref = r' := by
    intro r' count found
    have erased := countP_eraseP s.inUse r r'
    rw [Log.markDead] at found
    cases counted : s.log.liveRefs.lookup r with
    | none =>
      simp only [counted] at found
      have other : r' ≠ r := by
        rintro rfl
        simp [counted] at found
      have before := inv.live r' count found
      rw [if_neg other] at erased
      omega
    | some n =>
      simp only [counted] at found
      by_cases same : r' = r
      · subst same
        have before := inv.live r' n counted
        rw [if_pos rfl] at erased
        split at found
        · simp at found
        · rw [AList.lookup_insert] at found
          obtain rfl := some.inj found
          omega
      · rw [if_neg same] at erased
        have kept : s.log.liveRefs.lookup r' = some count := by
          split at found
          · rwa [AList.lookup_erase_ne same] at found
          · rwa [AList.lookup_insert_ne same] at found
        have before := inv.live r' count kept
        omega
  have same_dir := s.log.markDead_spec r
  refine ⟨fun o mem => ?_, ?_, live, ?_, ?_⟩
  · rw [same_dir.1]
    exact inv.inUse o (mem_of_mem_eraseP mem)
  · rw [same_dir.1, same_dir.2.1]
    exact inv.index
  · rw [same_dir.1, same_dir.2.2]
    exact inv.writers
  · rw [same_dir.2.2]
    exact inv.queues

theorem liveIn_eq_nil (inv : Inv x values s) {fileId : Nat}
    (unused : ∀ o ∈ s.inUse, o.ref.fileId ≠ fileId) : s.log.liveIn fileId = [] := by
  refine map_eq_nil_iff.mpr (filter_eq_nil_iff.mpr fun e mem => ?_)
  obtain ⟨r, count⟩ := e
  have counted := inv.live r count (AList.mem_lookup_iff.mpr mem)
  simp only [decide_eq_true_eq, not_and]
  rintro here positive
  obtain ⟨o, at_o, same⟩ := countP_pos_iff.mp (lt_of_lt_of_le positive counted)
  have ref : o.ref = r := by simpa using same
  exact unused o at_o (ref ▸ here)

variable {order : GcOrder}

/-- A file without a value in use is removed, and the index forgets it. -/
theorem Inv.compactFile (inv : Inv x values s) {stats : BlobFileStats}
    (unused : ∀ o ∈ s.inUse, o.ref.fileId ≠ stats.fileId) :
    Inv x values ⟨s.log.compactFile x order stats, s.inUse⟩ := by
  have nothing : order.refs (s.log.liveIn stats.fileId) = [] := by
    rw [liveIn_eq_nil inv unused]
    exact perm_nil.mp (order.refs_perm [])
  rw [Log.compactFile, if_pos nothing]
  have kept {k : Nat} (other : k ≠ stats.fileId) :
      (s.log.dir.erase stats.fileId)[k]? = s.log.dir[k]? := by
    simp [Std.ExtTreeMap.getElem?_erase, Ne.symm other]
  have stays {r : BlobRef} {value : Bytes} (stored : Stored x s.log.dir r value)
      (other : r.fileId ≠ stats.fileId) : Stored x (s.log.dir.erase stats.fileId) r value :=
    stored.mono fun data found => ⟨[], by rw [kept other, found, append_nil]⟩
  refine ⟨fun o mem => ?_, fun hash r at_hash => ?_, inv.live, fun i w at_i => ?_, inv.queues⟩
  · obtain ⟨stored, hash⟩ := inv.inUse o mem
    exact ⟨stays stored (unused o mem), hash⟩
  · rw [Std.ExtTreeMap.getElem?_filter'] at at_hash
    obtain ⟨found, other⟩ := filter_eq_some_iff.mp at_hash
    obtain ⟨u, at_u, same, stored⟩ := inv.index hash r found
    exact ⟨u, at_u, same, stays stored (by simpa using other)⟩
  · obtain ⟨id, ends⟩ := inv.writers i w at_i
    refine ⟨id, fun data found => ends data ?_⟩
    by_cases removed : i = stats.fileId
    · subst removed
      simp at found
    · exact (kept removed).symm.trans found

theorem Inv.runGc (inv : Inv x values s) (keeps : Keeps x s (.runGc order)) :
    Inv x values ⟨(s.log.runGc x order).1, s.inUse⟩ := by
  have each (l : List BlobFileStats)
      (unused : ∀ stats ∈ l, ∀ o ∈ s.inUse, o.ref.fileId ≠ stats.fileId) (log : Log)
      (inv : Inv x values ⟨log, s.inUse⟩) :
      Inv x values ⟨l.foldl (Log.compactFile x order) log, s.inUse⟩ := by
    induction l generalizing log with
    | nil => exact inv
    | cons stats l ih =>
      refine ih (fun other mem => unused other (by simp [mem])) _ ?_
      exact inv.compactFile (unused stats (by simp))
  refine each _ (fun stats mem => ?_) s.log inv
  obtain ⟨listed, full⟩ := mem_filter.mp mem
  exact keeps stats ((order.files_perm _).subset listed) full

theorem Inv.step (inv : Inv x values s) {a : Action} (known : ∀ v, a = .write v → v ∈ values)
    (collisionFree : ∀ u ∈ values, ∀ v ∈ values, contentHash x u = contentHash x v → u = v)
    (keeps : Keeps x s a) (next : step x s a = some s') : Inv x values s' := by
  cases a with
  | write value =>
    have at_value := known value rfl
    exact inv.write at_value (fun u at_u => collisionFree u at_u value at_value) keeps next
  | markDead r =>
    obtain rfl := some.inj next
    exact inv.markDead r
  | runGc order =>
    obtain rfl := some.inj next
    exact inv.runGc keeps
  | reopen numQueues =>
    obtain rfl := some.inj next
    exact inv_new inv.inUse numQueues

def Action.value? : Action → Option Bytes
  | .write value => some value
  | _ => none

/-- No two values that the run writes have the same content hash. -/
def CollisionFree (x : Xxh3) (acts : List Action) : Prop :=
  ∀ u ∈ acts.filterMap value?, ∀ v ∈ acts.filterMap value?,
    contentHash x u = contentHash x v → u = v

instance (acts : List Action) : Decidable (CollisionFree x acts) :=
  inferInstanceAs (Decidable (∀ u ∈ acts.filterMap value?,
    ∀ v ∈ acts.filterMap value?, contentHash x u = contentHash x v → u = v))

/-- Values in use stay readable in every run whose collections spare the files that they are in,
and whose writes do not go to removed files. -/
theorem values_in_use_stay_readable {numQueues : UInt64} {acts : List Action}
    (collisionFree : CollisionFree x acts)
    (keeps : Run.Along (step x) (Keeps x) (Session.start dir numQueues) acts) :
    Run.Throughout (step x) (Readable x) (Session.start dir numQueues) acts := by
  have start : Inv x (acts.filterMap value?) (Session.start dir numQueues) :=
    @inv_new x (acts.filterMap value?) (Session.start dir numQueues) dir
      (by simp [Session.start]) numQueues
  have known := @Run.along_of_forall _ _ (step x)
    (fun a => ∀ v, a = .write v → v ∈ acts.filterMap value?) acts
    (Session.start dir numQueues)
    fun a mem v eq => mem_filterMap.mpr ⟨a, mem, by rw [eq]; rfl⟩
  have preserved (s : Session) (a : Action) (s' : Session) (inv : Inv x (acts.filterMap value?) s)
      (guard : Keeps x s a ∧ ∀ v, a = .write v → v ∈ acts.filterMap value?)
      (next : step x s a = some s') : Inv x (acts.filterMap value?) s' :=
    inv.step guard.2 collisionFree guard.1 next
  refine Run.throughout_iff_along.mpr ⟨start.readable, ?_⟩
  exact (keeps.and known).of_invariant preserved
    (fun s a inv guard s' next => (preserved s a s' inv guard next).readable) start

/-- Hashes that tell short values apart. -/
def shortHashes : Xxh3 := ⟨fun data => data.length.toUInt64, ofLe⟩

/-- The file of a dead value is removed; then its queue has a new one after the restart. -/
def collectDeadFile : List Action :=
  [.write [1, 1], .write [2], .markDead ⟨0, 0, 2⟩, .runGc .plain, .write [2], .reopen 2, .write [3]]

theorem values_stay_readable_beside_dead_file :
    Run.Throughout (step shortHashes) (Readable shortHashes) (Session.start ∅ 2) collectDeadFile :=
  values_in_use_stay_readable (by decide +kernel) (by decide +kernel)

/-- A short value in use beside a long dead one. -/
def collectLiveFile : List Action :=
  [.write (List.replicate 100 1), .write [2], .markDead ⟨0, 0, 100⟩, .runGc .plain]

/-- The collection moves the value, which the reference does not follow. -/
theorem collection_loses_value_in_use : CollisionFree shortHashes collectLiveFile ∧
      ¬ Run.Throughout (step shortHashes) (Readable shortHashes) (Session.start ∅ 1)
        collectLiveFile := by
  have lost : ((Run.run (step shortHashes) (Session.start ∅ 1) collectLiveFile).map fun s =>
      s.inUse.map fun o =>
        (o.value, s.log.readTransparent shortHashes (encodeBlobRef o.hash o.ref))) =
          some [([2], .error .notFound)] := by
    decide +kernel
  refine ⟨by decide +kernel, fun readable => ?_⟩
  obtain ⟨s, ran, values⟩ := map_eq_some_iff.mp lost
  have last := readable collectLiveFile [] s (append_nil _) ran
  obtain ⟨o, mem, shown⟩ := mem_map.mp (values ▸ mem_singleton_self _)
  have read := last o mem
  rw [(Prod.mk.inj shown).2] at read
  cases read

end Sessions

end BlobLog

end GalaxDb
