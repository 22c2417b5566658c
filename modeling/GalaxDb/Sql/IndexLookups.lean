import GalaxDb.Sql.IndexKeys
import GalaxDb.Storage.MapRefinement
import Mathlib.Data.Set.List

/-!
# Lookups over the entries of an engine

Entries are put into the engine and deleted from it under keys that determine them, and a
scan lists them by value. As long as the engine keeps what it is given, a lookup returns the
primary keys that are entered; it loses an entry whose primary key is that of another entry
of the value followed by a zero byte.
-/

namespace GalaxDb.Sql.IndexLookups

open Bytes SecondaryIndex Row List

/-- Index names have no zero byte. -/
structure IndexName where
  bytes : Bytes
  clean : (0 : UInt8) ∉ bytes

inductive IndexedValue where
  | integer (n : Int64)
  | bool (b : Bool)
  | text (s : Bytes)
  | blob (bytes : Bytes)
  deriving DecidableEq

open IndexedValue

def IndexedValue.value : IndexedValue → Value
  | .integer n => .integer n.toInt
  | .bool b => .bool b
  | .text s => .text s
  | .blob bytes => .blob bytes

/-- The types in the order of their tags. -/
def IndexedValue.type : IndexedValue → Nat
  | .bool _ => 0
  | .integer _ => 1
  | .text _ => 2
  | .blob _ => 3

/-- The natural order of two values of one type. -/
def IndexedValue.order : IndexedValue → IndexedValue → Ordering
  | .integer a, .integer b => compare a.toInt b.toInt
  | .bool a, .bool b => compare a b
  | .text a, .text b => compare a b
  | .blob a, .blob b => compare a b
  | _, _ => .eq

structure Entry where
  index : IndexName
  value : IndexedValue
  pk : Bytes

def Entry.key (x : Entry) : Bytes := entryKey x.index.bytes x.value.value x.pk

inductive EntryCall where
  | insertEntry (x : Entry)
  | deleteEntry (x : Entry)

/-- What a call does to the engine. -/
def EntryCall.op : EntryCall → Engine.Op
  | .insertEntry x => .put x.key x.pk
  | .deleteEntry x => .delete x.key

def runCalls (env : Platform) (config : EngineConfig) (calls : List EntryCall) : Option Engine :=
  Run.run (Engine.step env) (Engine.fresh env config) (calls.map EntryCall.op)

/-- `lookup_eq`. -/
def lookupEq (e : Engine) (order : IterOrder) (name : Bytes) (v : Value) : List Bytes :=
  ((e.scanAllWithPrefix order (some (entryValuePrefix name v))).filter fun r =>
    (entryValuePrefix name v).isPrefixOf r.1).filterMap fun r => pkFromEntryKey name r.1

/-- What `lookup_range` makes of one key of the scan. -/
def inRange (name : Bytes) (low high : Option Value) (key : Bytes) : Option Bytes :=
  (splitValueAndPk (key.drop (entryPrefixForIndex name).length)).bind fun p =>
    if p.1.head? = some 48 then none
    else if low.any fun lo => compare p.1 (encodeIndexValue lo) = .lt then none
    else if high.any fun hi => compare p.1 (encodeIndexValue hi) = .gt then none
    else pkFromEntryKey name key

/-- `lookup_range`. -/
def lookupRange (e : Engine) (order : IterOrder) (name : Bytes) (low high : Option Value) :
    List Bytes :=
  ((e.scanAllWithPrefix order (some (entryPrefixForIndex name))).filter fun r =>
    (entryPrefixForIndex name).isPrefixOf r.1).filterMap fun r => inRange name low high r.1

/-- What is entered is a set. -/
def EntryCall.apply (entered : Set Entry) : EntryCall → Set Entry
  | .insertEntry x => insert x entered
  | .deleteEntry x => entered \ {x}

def entered (calls : List EntryCall) : Set Entry := calls.foldl EntryCall.apply ∅

/-- The primary key of no entry of the value is this one followed by a zero byte and more, or
the other way round. -/
def Separate (entered : Set Entry) : EntryCall → Prop
  | .insertEntry x => ∀ y ∈ entered, y.index = x.index → y.value = x.value → ¬ Clash x.pk y.pk
  | .deleteEntry _ => True

/-- Every call of the run finds its primary key separate. -/
def SeparateRun : Set Entry → List EntryCall → Prop
  | _, [] => True
  | entered, call :: rest => Separate entered call ∧ SeparateRun (call.apply entered) rest

section Keys

theorem IndexedValue.fits (v : IndexedValue) : FitsI64 v.value := by
  cases v with
  | integer n =>
    have low := n.le_toInt
    have high := n.toInt_lt
    simp only [value, FitsI64, i64Min, i64Max]
    omega
  | _ => trivial

variable {v w : IndexedValue} {x : Entry}

theorem order_eq_iff (types : v.type = w.type) : v.order w = .eq ↔ v = w := by
  cases v <;> cases w <;> cases types <;> simp [order, Int64.toInt_inj]

theorem compare_tags (less : v.type < w.type) :
    compare (encodeIndexValueRaw v.value) (encodeIndexValueRaw w.value) = .lt := by
  apply compare_of_tags
  cases v <;> cases w <;> simp_all [type, value, indexTag]

/-- The encodings are in the order of the types, and within a type of the values. -/
theorem compare_raw (v w : IndexedValue) :
    compare (encodeIndexValueRaw v.value) (encodeIndexValueRaw w.value) =
      (compare v.type w.type).then (v.order w) := by
  rcases Nat.lt_trichotomy v.type w.type with less | same | greater
  · rw [compare_tags less, Nat.compare_eq_lt.mpr less]
    rfl
  · rw [Nat.compare_eq_eq.mpr same, Ordering.eq_then]
    cases v with
    | integer n =>
      cases w with
      | integer m => exact compare_integers (integer n).fits (integer m).fits
      | _ => cases same
    | bool b =>
      cases w with
      | bool c => cases b <;> cases c <;> rfl
      | _ => cases same
    | text t =>
      cases w with
      | text u => simp [value, encodeIndexValueRaw, List.compare_cons_cons, order]
      | _ => cases same
    | blob t =>
      cases w with
      | blob u => simp [value, encodeIndexValueRaw, List.compare_cons_cons, order]
      | _ => cases same
  · rw [Std.OrientedCmp.gt_of_lt (compare_tags greater), Nat.compare_eq_gt.mpr greater]
    rfl

theorem encode_injective (same : encodeIndexValue v.value = encodeIndexValue w.value) : v = w := by
  have raw := compare_raw v w
  rw [escapeZeros_injective same, Std.compare_self, eq_comm, Ordering.then_eq_eq] at raw
  exact (order_eq_iff (Nat.compare_eq_eq.mp raw.1)).mp raw.2

variable {i : IndexName} {y : Entry}

theorem Entry.ext_key (same : x.key = y.key) : x = y := by
  obtain ⟨name, encoded, pk⟩ := entryKey_inj x.index.clean y.index.clean same
  obtain ⟨⟨name, clean⟩, v, pk⟩ := x
  cases name
  cases pk
  cases encode_injective encoded
  rfl

theorem prefix_key_iff : entryPrefixForIndex i.bytes <+: x.key ↔ x.index = i := by
  constructor
  · intro inside
    have name := name_of_entryKey i.clean x.index.clean inside
    obtain ⟨⟨name', clean⟩, v, pk⟩ := x
    cases name
    rfl
  · rintro rfl
    rw [Entry.key, entryKey_eq]
    exact prefix_append ..

theorem prefix_value_iff :
    entryValuePrefix i.bytes v.value <+: x.key ↔ x.index = i ∧ x.value = v := by
  constructor
  · rintro ⟨rest, same⟩
    have key : (Entry.mk i v rest).key = x.key := same
    rw [← Entry.ext_key key]
    exact ⟨rfl, rfl⟩
  · rintro ⟨rfl, rfl⟩
    exact prefix_append ..

/-- Keys of entries clash only within one value of one index. -/
theorem clash_key_iff : Clash x.key y.key ↔
    x.index = y.index ∧ x.value = y.value ∧ Clash x.pk y.pk := by
  have extends_iff {x y : Entry} : x.key ++ [0] <+: y.key ↔
      x.index = y.index ∧ x.value = y.value ∧ x.pk ++ [0] <+: y.pk := by
    constructor
    · rintro ⟨rest, same⟩
      have key : (Entry.mk x.index x.value (x.pk ++ [0] ++ rest)).key = y.key := by
        rw [← same]
        simp [Entry.key, entryKey]
      rw [← Entry.ext_key key]
      exact ⟨rfl, rfl, prefix_append ..⟩
    · obtain ⟨i', v', pk'⟩ := y
      rintro ⟨rfl, rfl, rest, rfl⟩
      exact ⟨rest, by simp [Entry.key, entryKey]⟩
  rw [Clash, Clash, extends_iff, extends_iff]
  grind

end Keys

section Filed

/-- The engine has only buffered entries: those entered are live, and indexed. -/
structure Filed (e : Engine) (entered : Set Entry) : Prop where
  unsealed : e.memtableMgr.active.isSealed = false
  noFile : e.sstRegistry = ∅
  wf : e.art.WF
  indexed : ∀ k, e.art.lookup k ≠ none → ∃ x ∈ entered, x.key = k
  found : ∀ x ∈ entered, e.art.lookup x.key ≠ none
  buffered : ∀ k b, ((e.memtableMgr.active.map[k]?).bind fun v => v.value) = some b ↔
    ∃ x ∈ entered, x.key = k ∧ x.pk = b

variable (env : Platform) {e : Engine} {entered : Set Entry}

theorem filed_fresh (env : Platform) (config : EngineConfig) :
    Filed (Engine.fresh env config) ∅ where
  unsealed := rfl
  noFile := rfl
  wf := (Engine.contains_fresh env config).wf
  indexed k found := absurd rfl found
  found x member := absurd member (Set.notMem_empty x)
  buffered k b := by simp [Engine.fresh, MemtableManager.new, Memtable.new]

theorem Filed.inserted (filed : Filed e entered) (x : Entry)
    (separate : Separate entered (.insertEntry x)) :
    ∃ e', Engine.step env e (.put x.key x.pk) = some e' ∧ Filed e' (insert x entered) := by
  have apart : ∀ k, e.art.lookup k ≠ none → ¬ Clash x.key k := by
    intro k found clash
    obtain ⟨y, member, rfl⟩ := filed.indexed k found
    obtain ⟨index, value, clash⟩ := clash_key_iff.mp clash
    exact separate y member index.symm value.symm clash
  obtain ⟨e', eq, put, -⟩ := Engine.putSync_spec env filed.wf x.pk apart
  refine ⟨e', by simp [Engine.step, eq], ?_⟩
  have pushed := put.buffered filed.unsealed
  refine ⟨?_, by rw [put.registry, filed.noFile], put.wf, ?_, ?_, ?_⟩
  · rw [put.memtableMgr]
    exact (Memtable.isSealed_put _ _ _ _).trans filed.unsealed
  · intro k found
    rw [put.lookup] at found
    split at found
    · rename_i own
      exact ⟨x, Set.mem_insert x entered, own.symm⟩
    · obtain ⟨y, member, key⟩ := filed.indexed k found
      exact ⟨y, Set.mem_insert_of_mem x member, key⟩
  · intro y member
    rw [put.lookup]
    split
    · simp
    · rename_i other
      exact filed.found y (member.resolve_left fun same => other (same ▸ rfl))
  · intro k b
    rw [pushed]
    split
    · rename_i own
      simp only [Option.bind_some, Memtable.push_value, Option.some.injEq]
      constructor
      · rintro rfl
        exact ⟨x, Set.mem_insert x entered, own, rfl⟩
      · rintro ⟨y, -, key, rfl⟩
        rw [Entry.ext_key (key.trans own.symm)]
    · rename_i other
      rw [filed.buffered]
      constructor
      · rintro ⟨y, member, key⟩
        exact ⟨y, Set.mem_insert_of_mem x member, key⟩
      · rintro ⟨y, member, rfl, pk⟩
        exact ⟨y, member.resolve_left fun same => other (same ▸ rfl), rfl, pk⟩

theorem Filed.deleted (filed : Filed e entered) (x : Entry) :
    ∃ e', Engine.step env e (.delete x.key) = some e' ∧ Filed e' (entered \ {x}) := by
  rcases Engine.deleteSync_spec env filed.wf x.key with ⟨missing, eq⟩ | ⟨-, e', eq, deleted, -⟩
  · have absent : x ∉ entered := fun member => filed.found x member missing
    refine ⟨e, by simp [Engine.step, eq], ?_⟩
    rwa [Set.sdiff_singleton_eq_self absent]
  · refine ⟨e', by simp [Engine.step, eq], ?_⟩
    have pushed := deleted.buffered filed.unsealed
    refine ⟨?_, by rw [deleted.registry, filed.noFile], deleted.wf, ?_, ?_, ?_⟩
    · rw [deleted.memtableMgr]
      exact (Memtable.isSealed_put _ _ _ _).trans filed.unsealed
    · intro k found
      rw [deleted.lookup] at found
      split at found
      · exact absurd rfl found
      · rename_i other
        obtain ⟨y, member, rfl⟩ := filed.indexed k found
        exact ⟨y, ⟨member, fun same => other (congrArg Entry.key same)⟩, rfl⟩
    · rintro y ⟨member, apart⟩
      rw [deleted.lookup, if_neg fun key => apart (Entry.ext_key key)]
      exact filed.found y member
    · intro k b
      rw [pushed]
      split
      · rename_i own
        simp only [Option.bind_some, Memtable.push_value, reduceCtorEq, false_iff]
        rintro ⟨y, ⟨-, apart⟩, key, -⟩
        exact apart (Entry.ext_key (key.trans own.symm))
      · rename_i other
        rw [filed.buffered]
        constructor
        · rintro ⟨y, member, rfl, pk⟩
          exact ⟨y, ⟨member, fun same => other (congrArg Entry.key same).symm⟩, rfl, pk⟩
        · rintro ⟨y, ⟨member, -⟩, key⟩
          exact ⟨y, member, key⟩

/-- One call. -/
theorem Filed.step (filed : Filed e entered) (call : EntryCall) (separate : Separate entered call) :
    ∃ e', Engine.step env e call.op = some e' ∧ Filed e' (call.apply entered) := by
  cases call with
  | insertEntry x => exact filed.inserted env x separate
  | deleteEntry x => exact filed.deleted env x

/-- Every run of calls. -/
theorem Filed.run (filed : Filed e entered) {calls : List EntryCall}
    (separate : SeparateRun entered calls) :
    ∃ e', Run.run (Engine.step env) e (calls.map EntryCall.op) = some e' ∧
      Filed e' (calls.foldl EntryCall.apply entered) := by
  induction calls generalizing e entered with
  | nil => exact ⟨e, rfl, filed⟩
  | cons call rest ih =>
    obtain ⟨e1, eq, filed1⟩ := filed.step env call separate.1
    obtain ⟨e', run, filed'⟩ := ih filed1 separate.2
    refine ⟨e', ?_, filed'⟩
    simp only [map_cons, Run.run, foldlM_cons]
    rw [eq]
    exact run

theorem Filed.mem_scan (filed : Filed e entered) (order : IterOrder) (pfx k b : Bytes) :
    (k, b) ∈ e.scanAllWithPrefix order (some pfx) ↔
      pfx <+: k ∧ ∃ x ∈ entered, x.key = k ∧ x.pk = b := by
  have rows : e.storedRows = [] := Engine.storedRows_eq_nil filed.noFile
  have readable : e.Readable := by
    refine ⟨by simp [rows, Distinct], fun id entry registered => ?_⟩
    simp [filed.noFile] at registered
  rw [Engine.mem_scanAllWithPrefix readable, ← filed.buffered]
  simp only [Engine.inPrefix, isPrefixOf_iff_prefix, Engine.Current, rows]
  cases e.memtableMgr.active.map[k]? <;> simp [Newest]

end Filed

/-- The order of the index: types first, then values. -/
def indexOrder (v w : IndexedValue) : Ordering := (compare v.type w.type).then (v.order w)

variable {v w : IndexedValue} {x y : Entry}

theorem indexOrder_of_type (types : v.type = w.type) : indexOrder v w = v.order w := by
  rw [indexOrder, Nat.compare_eq_eq.mpr types, Ordering.eq_then]

theorem indexOrder_of_lt (types : v.type < w.type) : indexOrder v w = .lt := by
  rw [indexOrder, Nat.compare_eq_lt.mpr types]
  rfl

theorem indexOrder_of_gt (types : w.type < v.type) : indexOrder v w = .gt := by
  rw [indexOrder, Nat.compare_eq_gt.mpr types]
  rfl

theorem compare_encoded (v w : IndexedValue) :
    compare (encodeIndexValue v.value) (encodeIndexValue w.value) = indexOrder v w := by
  rw [encodeIndexValue, encodeIndexValue, compare_escapeZeros, compare_raw, indexOrder]

theorem compare_behind (pfx a b : Bytes) : compare (pfx ++ a) (pfx ++ b) = compare a b := by
  induction pfx with
  | nil => rfl
  | cons x pfx ih => rw [List.cons_append, List.cons_append, List.compare_cons_cons,
      Std.compare_self, Ordering.eq_then, ih]

theorem compare_keys (index : x.index = y.index) :
    compare x.key y.key = (indexOrder x.value y.value).then (compare x.pk y.pk) := by
  rw [Entry.key, Entry.key, entryKey_eq, entryKey_eq, index, compare_behind, encodeIndexValue,
    encodeIndexValue, compare_terminated, compare_raw, indexOrder]

/-- One entry comes before another in value order, and with one value by primary key. -/
def Precedes (x y : Entry) : Prop :=
  x.value.type < y.value.type ∨ (x.value.type = y.value.type ∧ (x.value.order y.value = .lt ∨
      (x.value = y.value ∧ compare x.pk y.pk = .lt)))

theorem precedes_of_keys (index : x.index = y.index) (less : compare x.key y.key = .lt) :
    Precedes x y := by
  rw [compare_keys index, indexOrder] at less
  rcases Nat.lt_trichotomy x.value.type y.value.type with types | types | types
  · exact Or.inl types
  · rw [Nat.compare_eq_eq.mpr types, Ordering.eq_then, Ordering.then_eq_lt] at less
    refine Or.inr ⟨types, less.imp_right fun same => ?_⟩
    exact ⟨(order_eq_iff types).mp same.1, same.2⟩
  · rw [Nat.compare_eq_gt.mpr types] at less
    cases less

section Lookups

variable {e : Engine} {entered : Set Entry}

/-- The entries that a scan lists. -/
theorem Filed.listed (filed : Filed e entered) (order : IterOrder) (pfx : Bytes) :
    ∃ listed : List Entry, e.scanAllWithPrefix order (some pfx) =
        listed.map (fun x => (x.key, x.pk)) ∧
      listed.Pairwise (fun x y => compare x.key y.key = .lt) ∧
      ∀ x, x ∈ listed ↔ x ∈ entered ∧ pfx <+: x.key := by
  have entries : e.scanAllWithPrefix order (some pfx) ∈
      Set.range (List.map fun x : Entry => (x.key, x.pk)) := by
    rw [Set.range_list_map]
    rintro ⟨k, b⟩ member
    obtain ⟨-, x, -, rfl, rfl⟩ := (filed.mem_scan order pfx k b).mp member
    exact ⟨x, rfl⟩
  obtain ⟨listed, scan⟩ := entries
  refine ⟨listed, scan.symm, ?_, fun x => ?_⟩
  · have ordered := e.scanAllWithPrefix_ordered order (some pfx)
    rwa [← scan, pairwise_map] at ordered
  · have member : x ∈ listed ↔ (x.key, x.pk) ∈ e.scanAllWithPrefix order (some pfx) := by
      rw [← scan, mem_map]
      constructor
      · exact fun member => ⟨x, member, rfl⟩
      · rintro ⟨y, member, same⟩
        rwa [← Entry.ext_key (Prod.mk.inj same).1]
    rw [member, filed.mem_scan, and_comm]
    refine and_congr_left fun _ => ⟨?_, fun member => ⟨x, member, rfl, rfl⟩⟩
    rintro ⟨y, member, same, -⟩
    rwa [← Entry.ext_key same]

variable {i : IndexName} {x : Entry}

theorem pkFromEntryKey_key (index : x.index = i) : pkFromEntryKey i.bytes x.key = some x.pk := by
  subst index
  exact pkFromEntryKey_entryKey ..

/-- Equality: the primary keys entered for the value, in order. -/
theorem Filed.lookupEq (filed : Filed e entered) (order : IterOrder) (i : IndexName)
    (v : IndexedValue) :
    (lookupEq e order i.bytes v.value).Pairwise (fun p q => compare p q = .lt) ∧
      ∀ pk, pk ∈ lookupEq e order i.bytes v.value ↔ ⟨i, v, pk⟩ ∈ entered := by
  obtain ⟨listed, scan, ordered, members⟩ :=
    filed.listed order (entryValuePrefix i.bytes v.value)
  have own : ∀ x ∈ listed, x.index = i ∧ x.value = v := fun x member =>
    prefix_value_iff.mp ((members x).mp member).2
  have found : IndexLookups.lookupEq e order i.bytes v.value = listed.map Entry.pk := by
    rw [IndexLookups.lookupEq, scan, filter_eq_self.mpr, filterMap_map]
    · rw [← filterMap_eq_map]
      exact filterMap_congr fun x member => pkFromEntryKey_key (own x member).1
    · rintro r scanned
      obtain ⟨x, member, rfl⟩ := mem_map.mp scanned
      exact isPrefixOf_iff_prefix.mpr ((members x).mp member).2
  rw [found]
  constructor
  · rw [pairwise_map]
    refine ordered.imp_of_mem fun {x y} hx hy less => ?_
    obtain ⟨index, value⟩ := own x hx
    obtain ⟨index', value'⟩ := own y hy
    rw [compare_keys (index.trans index'.symm), value, value', indexOrder_of_type rfl,
      (order_eq_iff rfl).mpr rfl] at less
    exact less
  · intro pk
    rw [mem_map]
    constructor
    · rintro ⟨x, member, rfl⟩
      obtain ⟨rfl, rfl⟩ := own x member
      exact ((members x).mp member).1
    · intro member
      exact ⟨⟨i, v, pk⟩, (members _).mpr ⟨member, prefix_value_iff.mpr ⟨rfl, rfl⟩⟩, rfl⟩

/-- The value lies between the bounds, in the order of the index. -/
def Inside (low high : Option IndexedValue) (v : IndexedValue) : Bool :=
  (low.all fun lo => indexOrder v lo ≠ .lt) && (high.all fun hi => indexOrder v hi ≠ .gt)

theorem inRange_key (index : x.index = i) (low high : Option IndexedValue) :
    inRange i.bytes (low.map value) (high.map value) x.key =
      if Inside low high x.value then some x.pk else none := by
  subst index
  have split : splitValueAndPk (x.key.drop (entryPrefixForIndex x.index.bytes).length) =
      some (encodeIndexValue x.value.value, x.pk) := splitValueAndPk_entryKey ..
  have tag : (encodeIndexValue x.value.value).head? ≠ some 48 := by
    obtain ⟨body, raw⟩ := encodeIndexValueRaw_head x.value.value
    rw [encodeIndexValue, raw, escapeZeros_cons]
    cases x.value <;> simp [value, indexTag]
  simp only [inRange, split, Option.bind_some, if_neg tag, pkFromEntryKey_key rfl, Option.any_map,
    compare_encoded]
  cases low <;> cases high <;> simp [Inside]
  all_goals grind

/-- A range: the primary keys entered for the values between the bounds, in value order. -/
theorem Filed.lookupRange (filed : Filed e entered) (order : IterOrder) (i : IndexName)
    (low high : Option IndexedValue) :
    ∃ found : List Entry, lookupRange e order i.bytes (low.map value)
        (high.map value) = found.map Entry.pk ∧
      found.Pairwise Precedes ∧
      ∀ x, x ∈ found ↔ x ∈ entered ∧ x.index = i ∧ Inside low high x.value = true := by
  obtain ⟨listed, scan, ordered, members⟩ := filed.listed order (entryPrefixForIndex i.bytes)
  have own : ∀ x ∈ listed, x.index = i := fun x member =>
    prefix_key_iff.mp ((members x).mp member).2
  refine ⟨listed.filter fun x => Inside low high x.value, ?_, ?_, fun x => ?_⟩
  · rw [IndexLookups.lookupRange, scan, filter_eq_self.mpr, filterMap_map]
    · rw [← filterMap_eq_map, filterMap_filter]
      exact filterMap_congr fun x member => inRange_key (own x member) low high
    · rintro r scanned
      obtain ⟨x, member, rfl⟩ := mem_map.mp scanned
      exact isPrefixOf_iff_prefix.mpr ((members x).mp member).2
  · have within : listed.Pairwise Precedes :=
      ordered.imp_of_mem fun {x y} hx hy less =>
        precedes_of_keys ((own x hx).trans (own y hy).symm) less
    exact within.sublist filter_sublist
  · rw [mem_filter, members, prefix_key_iff, and_assoc]

end Lookups

/-- Of the type of the bounds. -/
def OfType (low high : Option IndexedValue) (v : IndexedValue) : Prop :=
  (∀ lo ∈ low, v.type = lo.type) ∧ ∀ hi ∈ high, v.type = hi.type

/-- Between the bounds, in the natural order. -/
def Between (low high : Option IndexedValue) (v : IndexedValue) : Prop :=
  (∀ lo ∈ low, v.order lo ≠ .lt) ∧ ∀ hi ∈ high, v.order hi ≠ .gt

theorem inside_iff_between {low high : Option IndexedValue} (types : OfType low high v) :
    Inside low high v = true ↔ Between low high v := by
  obtain ⟨below, above⟩ := types
  cases low <;> cases high <;> simp_all [Inside, Between, indexOrder_of_type]

/-- Between two bounds of one type there are only values of that type. -/
theorem ofType_of_inside {lo hi : IndexedValue} (types : lo.type = hi.type)
    (inside : Inside (some lo) (some hi) v = true) : OfType (some lo) (some hi) v := by
  obtain ⟨above, below⟩ : indexOrder v lo ≠ .lt ∧ indexOrder v hi ≠ .gt := by
    simpa [Inside] using inside
  have same : v.type = lo.type := by
    rcases Nat.lt_trichotomy v.type lo.type with less | same | greater
    · exact absurd (indexOrder_of_lt less) above
    · exact same
    · exact absurd (indexOrder_of_gt (types ▸ greater)) below
  simp [OfType, same, types]

def sampleIndex : IndexName := ⟨ascii "i", by decide⟩

end GalaxDb.Sql.IndexLookups
