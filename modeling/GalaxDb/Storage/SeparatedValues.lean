import GalaxDb.Lib.Bits
import GalaxDb.Storage.LiveBlobs

/-!
# Slots of values

A slot of the memtable has a value, or the reference to a value in the blob log. A read tells
the two apart by length and first byte, so a value in its slot is returned unless it looks like
a reference, and a value in the log unless its length does not fit the field of its entry.
-/

namespace GalaxDb

open Bytes List Option

namespace BlobLog

variable {x : Xxh3}

theorem toBytes_of_fromBytes {data : Bytes} {r : BlobRef} (size : data.length = blobRefSize)
    (read : BlobRef.fromBytes data = some r) : r.Encodable ∧ r.toBytes = data := by
  rw [BlobRef.fromBytes, if_neg (Nat.not_lt_of_le (Nat.le_of_eq size.symm))] at read
  obtain rfl := some.inj read
  refine ⟨⟨ofLe_take_lt 8 _, ofLe_take_lt 8 _, ofLe_take_lt 4 _⟩, ?_⟩
  have file : (data.take 8).length = 8 := by simp [size, blobRefSize]
  have offset : ((data.drop 8).take 8).length = 8 := by simp [size, blobRefSize]
  have count : ((data.drop 16).take 4).length = 4 := by simp [size, blobRefSize]
  have whole : (data.drop 16).take 4 = data.drop 16 :=
    take_of_length_le (by simp [size, blobRefSize])
  have rest : (data.drop 8).take 8 ++ data.drop 16 = data.drop 8 := by
    have parts := take_append_drop 8 (data.drop 8)
    rwa [drop_drop] at parts
  rw [BlobRef.toBytes, toLe_eq_of_length file, toLe_eq_of_length offset, toLe_eq_of_length count,
    whole, append_assoc, rest, take_append_drop]

/-- Only references that were encoded are decoded. -/
theorem encode_of_decode {slot hash : Bytes} {r : BlobRef}
    (decoded : decodeBlobRef slot = some (hash, r)) :
    hash.length = contentHashSize ∧ r.Encodable ∧ encodeBlobRef hash r = slot := by
  rw [decodeBlobRef] at decoded
  split_ifs at decoded with size tag
  rw [not_not] at size tag
  obtain ⟨found, read, same⟩ := map_eq_some_iff.mp decoded
  obtain ⟨rfl, rfl⟩ := Prod.mk.inj same
  cases slot with
  | nil => cases tag
  | cons first rest =>
    obtain rfl := some.inj tag
    have length : rest.length = contentHashSize + blobRefSize := by
      simp only [length_cons, blobMarkerSize] at size
      omega
    rw [Nat.add_comm, drop_succ_cons] at read
    obtain ⟨fits, bytes⟩ := toBytes_of_fromBytes (by rw [length_drop, length]; rfl) read
    refine ⟨by simp [length], fits, ?_⟩
    rw [encodeBlobRef, bytes, drop_succ_cons, drop_zero, cons_append,
      take_append_drop]

def shouldSeparate (value : Bytes) (threshold : Nat) : Bool := threshold < value.length

/-- The slot of a value: a reference to the log if the value is long, else the value. -/
def Log.store (x : Xxh3) (threshold : Nat) (log : Log) (value : Bytes) : Log × Bytes :=
  if shouldSeparate value threshold then
    let result := log.write x value
    (result.1, encodeBlobRef result.2.1 result.2.2)
  else (log, value)

inductive SlotAction where
  | store (threshold : Nat) (value : Bytes)
  | markDead (ref : BlobRef)
  | reopen (numQueues : UInt64)

/-- No step is a collection. -/
def slotStep (x : Xxh3) (log : Log) : SlotAction → Option Log
  | .store threshold value => some (log.store x threshold value).1
  | .markDead ref => some (log.markDead ref)
  | .reopen numQueues => some (Log.new log.dir numQueues)

def SlotAction.value? : SlotAction → Option Bytes
  | .store _ value => some value
  | _ => none

/-- No file is as long as an offset of 64 bits cannot say. -/
def Log.FilesFit (log : Log) : Prop :=
  ∀ (id : Nat) (data : Bytes), log.dir[id]? = some data → data.length < 2 ^ 64

/-- The content hash tells the values apart. -/
def HashedApart (x : Xxh3) (values : List Bytes) : Prop :=
  ∀ u ∈ values, ∀ v ∈ values, contentHash x u = contentHash x v → u = v

/-- In every run without a collection the slot of the value gives the value back. -/
def Returned (x : Xxh3) (threshold : Nat) (value : Bytes) : Prop :=
  ∀ (dir : BlobDir) (numQueues : UInt64) (before after : List SlotAction) (log last : Log),
    HashedApart x ((before ++ .store threshold value :: after).filterMap SlotAction.value?) →
    Run.Along (slotStep x) (fun log _ => log.FilesFit) (Log.new dir numQueues)
      (before ++ .store threshold value :: after) →
    Run.run (slotStep x) (Log.new dir numQueues) before = some log →
    Run.run (slotStep x) (log.store x threshold value).1 after = some last →
    last.readTransparent x (log.store x threshold value).2 = .ok value

/-- A value that its slot does not confuse: a separated one has a length of 32 bits, and one in
its slot has not both the length and the first byte of a reference. -/
def ToldApart (threshold : Nat) (value : Bytes) : Prop :=
  if shouldSeparate value threshold then value.length < 2 ^ 32
  else ¬ (value.length = blobMarkerSize ∧ value.head? = some blobRefTag)

instance (threshold : Nat) (value : Bytes) : Decidable (ToldApart threshold value) :=
  inferInstanceAs (Decidable (if shouldSeparate value threshold then value.length < 2 ^ 32
    else ¬ (value.length = blobMarkerSize ∧ value.head? = some blobRefTag)))

section Growth

/-- Every file is kept and at most appended to. -/
def Grown (dir dir' : BlobDir) : Prop :=
  ∀ (id : Nat) (data : Bytes), dir[id]? = some data → ∃ more, dir'[id]? = some (data ++ more)

theorem Grown.refl (dir : BlobDir) : Grown dir dir :=
  fun _ data found => ⟨[], by rw [found, append_nil]⟩

theorem Grown.trans {a b c : BlobDir} (first : Grown a b) (second : Grown b c) : Grown a c := by
  intro id data found
  obtain ⟨more, found⟩ := first id data found
  obtain ⟨rest, found⟩ := second id _ found
  exact ⟨more ++ rest, by rw [found, append_assoc]⟩

/-- The writers stand at the ends of files that are there, and the index points at the short
values of its hashes. -/
structure Placed (x : Xxh3) (values : List Bytes) (log : Log) : Prop where
  writers : ∀ (i : Nat) (w : BlobWriter), log.writers[i]? = some w → w.fileId = i ∧
    ∃ data : Bytes, log.dir[i]? = some data ∧ w.offset = data.length
  queues : 0 < log.writers.length ∧ log.writers.length ≤ 2 ^ 64
  index : ∀ hash r, log.index[hash]? = some r → ∃ value ∈ values,
    contentHash x value = hash ∧ (value.length < 2 ^ 32 → Stored x log.dir r value)

variable {values : List Bytes} {log : Log} {value : Bytes}

theorem placed_new (dir : BlobDir) (numQueues : UInt64) :
    Placed x values (Log.new dir numQueues) ∧ Grown dir (Log.new dir numQueues).dir := by
  obtain ⟨kept, length, each⟩ := @openWriters_spec dir
    (List.range (if numQueues = 0 then defaultNumQueues else numQueues.toNat))
  refine ⟨⟨fun i w at_i => ?_, ?_, fun hash r found => ?_⟩, fun id data found => ?_⟩
  · obtain ⟨at_id, data, found, offset⟩ := each i w at_i
    have same : w.fileId = i := by
      obtain ⟨_, eq⟩ := List.getElem?_eq_some_iff.mp at_id
      simpa using eq.symm
    subst same
    exact ⟨rfl, data, found, offset⟩
  · rw [Log.new, length, length_range]
    exact queueCount numQueues
  · simp [Log.new] at found
  · exact ⟨[], by rw [append_nil]; exact kept id data found⟩

/-- A write returns where the value is, unless the value is too long. -/
theorem Placed.write (placed : Placed x values log) (known : value ∈ values)
    (apart : HashedApart x values) (fit : log.FilesFit) :
    Placed x values (log.write x value).1 ∧ Grown log.dir (log.write x value).1.dir ∧
      (log.write x value).2.1 = contentHash x value ∧
      (value.length < 2 ^ 32 → Stored x (log.write x value).1.dir (log.write x value).2.2 value) :=
        by
  cases indexed : log.index[contentHash x value]? with
  | some existing =>
    simp only [Log.write, indexed]
    obtain ⟨u, at_u, same, stored⟩ := placed.index _ _ indexed
    obtain rfl := apart u at_u value known same
    exact ⟨⟨placed.writers, placed.queues, placed.index⟩, Grown.refl _, trivial, stored⟩
  | none =>
    have at_turn := log.getElem?_turn placed.queues.1
    obtain ⟨own, data, found, ends⟩ := placed.writers _ _ at_turn
    have turn_lt := Nat.mod_lt log.nextWriter placed.queues.1
    have at_file := own ▸ found
    have stored (short : value.length < 2 ^ 32) :=
      @stored_writeValue x log.dir value log.turn data short
        (lt_of_lt_of_le (own ▸ turn_lt) placed.queues.2) (ends ▸ fit _ data found) at_file ends
    have grown : Grown log.dir (log.turn.writeValue x log.dir value (contentHash x value)).1 :=
      fun id data found => grown_appendFile found
    simp only [Log.write, indexed]
    refine ⟨⟨fun i w at_i => ?_, by simpa using placed.queues, fun hash r at_hash => ?_⟩, grown,
      trivial, stored⟩
    · by_cases here : log.nextWriter % log.writers.length = i
      · subst here
        rw [getElem?_set_self turn_lt] at at_i
        obtain rfl := some.inj at_i
        refine ⟨own, data ++ entryBytes x value (contentHash x value), ?_, ?_⟩
        · change (appendFile _ log.turn.fileId _)[_]? = _
          rw [getElem?_appendFile, if_pos own.symm, found]
          rfl
        · change log.turn.offset + _ = _
          rw [length_append, ends]
      · rw [getElem?_set_ne here] at at_i
        obtain ⟨id, other, at_other, offset⟩ := placed.writers i w at_i
        refine ⟨id, other, ?_, offset⟩
        have elsewhere : i ≠ log.turn.fileId := fun same => here (own.symm.trans same.symm)
        change (appendFile _ log.turn.fileId _)[i]? = _
        rwa [getElem?_appendFile, if_neg elsewhere]
    · rw [Std.ExtTreeMap.getElem?_insert] at at_hash
      split at at_hash
      · rename_i same
        obtain rfl := some.inj at_hash
        exact ⟨value, known, Std.LawfulEqCmp.compare_eq_iff_eq.mp same, stored⟩
      · obtain ⟨u, at_u, same, before⟩ := placed.index hash r at_hash
        exact ⟨u, at_u, same, fun short => (before short).mono fun data => grown _ data⟩

theorem Placed.step (placed : Placed x values log) (apart : HashedApart x values)
    {a : SlotAction} (known : ∀ v, a.value? = some v → v ∈ values) (fit : log.FilesFit)
    {log' : Log} (next : slotStep x log a = some log') :
    Placed x values log' ∧ Grown log.dir log'.dir := by
  cases a with
  | store threshold v =>
    obtain rfl := some.inj next
    rw [Log.store]
    split
    · obtain ⟨written, grown, -⟩ := placed.write (known v rfl) apart fit
      exact ⟨written, grown⟩
    · exact ⟨placed, Grown.refl _⟩
  | markDead ref =>
    obtain rfl := some.inj next
    obtain ⟨dir, index, writers⟩ := log.markDead_spec ref
    rw [dir]
    refine ⟨⟨?_, ?_, ?_⟩, Grown.refl _⟩
    · rw [dir, writers]
      exact placed.writers
    · rw [writers]
      exact placed.queues
    · rw [dir, index]
      exact placed.index
  | reopen numQueues =>
    obtain rfl := some.inj next
    exact placed_new log.dir numQueues

/-- Files only grow in a run. -/
theorem Placed.run (apart : HashedApart x values) {acts : List SlotAction}
    (known : ∀ a ∈ acts, ∀ v, a.value? = some v → v ∈ values) (placed : Placed x values log)
    (fit : Run.Along (slotStep x) (fun log _ => log.FilesFit) log acts) {last : Log}
    (ran : Run.run (slotStep x) log acts = some last) :
    Placed x values last ∧ Grown log.dir last.dir := by
  have knows := @Run.along_of_forall _ _ (slotStep x)
    (fun a => ∀ v, a.value? = some v → v ∈ values) acts log known
  refine @Run.invariant_of_run _ _ (slotStep x) _
    (fun later => Placed x values later ∧ Grown log.dir later.dir) ?_ acts log last
    ⟨placed, Grown.refl _⟩ (fit.and knows) ran
  rintro s a s' ⟨placed, grown⟩ ⟨fit, known⟩ next
  obtain ⟨placed', grown'⟩ := placed.step apart known fit next
  exact ⟨placed', grown.trans grown'⟩

end Growth

section Law

variable {threshold : Nat} {value : Bytes}

theorem returned_of_toldApart (told : ToldApart threshold value) : Returned x threshold value := by
  intro dir numQueues before after log last apart fit ran ran'
  have known (a : SlotAction) (mem : a ∈ before ++ .store threshold value :: after) (v : Bytes)
      (stores : a.value? = some v) :
      v ∈ (before ++ .store threshold value :: after).filterMap SlotAction.value? :=
    mem_filterMap.mpr ⟨a, mem, stores⟩
  rw [ToldApart] at told
  by_cases separated : shouldSeparate value threshold = true
  · rw [if_pos separated] at told
    obtain ⟨placed, -⟩ := (placed_new dir numQueues).1.run apart
      (fun a mem => known a (mem_append_left _ mem)) fit.front ran
    obtain ⟨here, later⟩ := fit.after ran
    obtain ⟨placed', -, hash, stored⟩ := placed.write
      (known _ (mem_append_right _ mem_cons_self) value rfl) apart here
    have slot : log.store x threshold value = ((log.write x value).1,
        encodeBlobRef (log.write x value).2.1 (log.write x value).2.2) := if_pos separated
    have grown := (placed'.run apart
      (fun a mem => known a (mem_append_right _ (mem_cons_of_mem _ mem)))
      (by simpa only [slot] using later _ rfl) (by simpa only [slot] using ran')).2
    have kept := (stored told).mono fun data => grown _ data
    rw [slot, Log.readTransparent, decode_encode kept.encodable (hash ▸ length_contentHash value)]
    exact kept.read
  · rw [if_neg separated] at told
    have slot : log.store x threshold value = (log, value) := if_neg separated
    have inline : decodeBlobRef value = none := by
      rw [decodeBlobRef]
      split_ifs with size tag
      · rfl
      · rfl
      · exact absurd ⟨not_not.mp size, not_not.mp tag⟩ told
    rw [slot, Log.readTransparent, inline]

/-- What is read has the length that its reference says. -/
theorem length_of_read {dir : BlobDir} {r : BlobRef} (read : BlobLog.read x dir r = .ok value) :
    value.length = r.length := by
  rw [BlobLog.read] at read
  split at read
  · cases read
  · rw [readEntry] at read
    split at read
    · cases read
    · simp only at read
      split_ifs at read
      obtain rfl := Except.ok.inj read
      rw [length_take, length_drop]
      omega

/-- A log in an empty directory, with one file. -/
theorem empty_files {id : Nat} {data : Bytes} (found : (Log.new ∅ 1).dir[id]? = some data) :
    data = [] := by
  have files : (Log.new ∅ 1).dir = (∅ : BlobDir).insert 0 [] := by
    simp [Log.new, openWriters, BlobWriter.new]
  rw [files, Std.ExtTreeMap.getElem?_insert] at found
  split at found
  · exact (some.inj found).symm
  · simp at found

theorem not_returned_of_confused (confused : ¬ ToldApart threshold value) :
    ¬ Returned x threshold value := by
  intro returned
  have fit : (Log.new ∅ 1).FilesFit := by
    intro id data found
    rw [empty_files found]
    decide
  have back := returned ∅ 1 [] [] (Log.new ∅ 1) _ (by simp [HashedApart, SlotAction.value?])
    ⟨fit, fun _ _ => trivial⟩ rfl rfl
  rw [ToldApart] at confused
  by_cases separated : shouldSeparate value threshold = true
  · rw [if_pos separated] at confused
    have slot : (Log.new ∅ 1).store x threshold value = (((Log.new ∅ 1).write x value).1,
        encodeBlobRef (contentHash x value) ⟨0, 0, value.length % 2 ^ 32⟩) := by
      rw [Log.store, if_pos separated]
      simp [Log.write, Log.new, openWriters, BlobWriter.new, BlobWriter.writeValue]
    have encodable : BlobRef.Encodable ⟨0, 0, value.length % 2 ^ 32⟩ :=
      ⟨Nat.two_pow_pos 64, Nat.two_pow_pos 64, Nat.mod_lt _ (by decide)⟩
    rw [slot, Log.readTransparent, decode_encode encodable (length_contentHash value)] at back
    have length : value.length = value.length % 2 ^ 32 := length_of_read back
    omega
  · rw [if_neg separated, not_not] at confused
    have slot : (Log.new ∅ 1).store x threshold value = (Log.new ∅ 1, value) := if_neg separated
    obtain ⟨size, tag⟩ := confused
    have long : ¬ (value.drop (1 + contentHashSize)).length < blobRefSize := by
      rw [length_drop, size]
      decide
    rw [slot, Log.readTransparent, decodeBlobRef, if_neg (not_not.mpr size),
      if_neg (not_not.mpr tag), BlobRef.fromBytes, if_neg long] at back
    simp only [map_some, BlobLog.read] at back
    split at back
    · cases back
    · rename_i data found
      rw [empty_files found, drop_nil] at back
      cases back

/-- The law of slots: a value is returned, and exactly the encoded references are decoded. -/
structure SlotLaw (x : Xxh3) (threshold : Nat) (value : Bytes) : Prop where
  returned : Returned x threshold value
  encoded : ∀ slot hash r, decodeBlobRef slot = some (hash, r) →
    hash.length = contentHashSize ∧ r.Encodable ∧ encodeBlobRef hash r = slot
  decoded : ∀ hash r, hash.length = contentHashSize → r.Encodable →
    decodeBlobRef (encodeBlobRef hash r) = some (hash, r)

theorem SlotLaw.of_returned (returned : Returned x threshold value) : SlotLaw x threshold value :=
  ⟨returned, fun _ _ _ => encode_of_decode, fun _ _ length fits => decode_encode fits length⟩

/-- A value keeps the law exactly if its slot does not confuse it. -/
theorem slot_law_exact (x : Xxh3) (threshold : Nat) (value : Bytes) :
    SlotLaw x threshold value ↔ ToldApart threshold value := by
  constructor
  · intro law
    by_contra confused
    exact not_returned_of_confused confused law.returned
  · intro told
    exact SlotLaw.of_returned (returned_of_toldApart told)

/-- A short value that starts with the tag is taken for a reference. -/
theorem tagged_value_not_returned :
    ¬ SlotLaw shortHashes 1024 (blobRefTag :: List.replicate 36 0) := by
  intro law
  exact not_returned_of_confused (by decide) law.returned

end Law

end BlobLog

end GalaxDb
