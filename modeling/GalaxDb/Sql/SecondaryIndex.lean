import GalaxDb.Lib.OrderedKeys
import GalaxDb.Sql.Executor

/-!
# Secondary indexes

Definitions and entries are ordinary keys of the store under prefixes that start with a
zero byte. An entry has the encoded value, two zeros and the key of the row; the encoding
starts with a tag for the type, and within a type its bytes are in the order of the values.
-/

namespace GalaxDb.Sql

open Bytes

/-- The engine as its callers see it: keys and values, scanned in key order. -/
abbrev Store := Std.ExtTreeMap Bytes Bytes compare

namespace Store

def scanPrefix (store : Store) (pfx : Bytes) : List (Bytes × Bytes) :=
  store.toList.filter fun r => pfx.isPrefixOf r.1

/-- Puts and deletes, one after the other. -/
def apply (store : Store) (writes : List (Bytes × Option Bytes)) : Store :=
  writes.foldl Reader.overlayWrite store

end Store

structure IndexDef where
  name : Bytes
  table : Bytes
  column : Bytes
  deriving DecidableEq

/-- Lengths are cut to 16 bits. -/
def IndexDef.toBytes (d : IndexDef) : Bytes :=
  toLe 2 d.name.length ++ d.name ++ toLe 2 d.table.length ++ d.table ++ d.column

def IndexDef.fromBytes (bytes : Bytes) : Option IndexDef :=
  if bytes.length < 2 then none
  else
    let nameLen := ofLe (bytes.take 2)
    let rest := bytes.drop 2
    if rest.length < nameLen + 2 then none
    else
      let name := rest.take nameLen
      let tableLen := ofLe ((rest.drop nameLen).take 2)
      let rest := (rest.drop nameLen).drop 2
      if rest.length < tableLen then none
      else some ⟨name, rest.take tableLen, rest.drop tableLen⟩

def defPrefix : Bytes := 0 :: ascii "galaxdb_secidx" ++ 0 :: ascii "def" ++ [0]

def entryPrefix : Bytes := 0 :: ascii "galaxdb_secidx" ++ 0 :: ascii "ent" ++ [0]

def defKey (name : Bytes) : Bytes := defPrefix ++ name

/-- The bits of a float as a number that grows with it: all are flipped under a sign, else
the sign alone. -/
def orderedBits (bits : Nat) : Nat :=
  if 2 ^ 63 ≤ bits then 2 ^ 64 - 1 - bits else bits + 2 ^ 63

mutual

def encodeIndexValueRaw : Value → Bytes
  | .null => [48]
  | .integer n => 105 :: toBe 8 ((n + 2 ^ 63) % 2 ^ 64).toNat
  | .float f => 102 :: toBe 8 (orderedBits f.toBits.toNat)
  | .bool b => [98, if b then 1 else 0]
  | .text s => 116 :: s
  | .blob bytes => 120 :: bytes
  | .array items => 97 :: toBe 4 items.length ++ encodeIndexElements items

/-- Each element after its length. -/
def encodeIndexElements : List Value → Bytes
  | [] => []
  | v :: rest =>
    toBe 4 (encodeIndexValueRaw v).length ++ encodeIndexValueRaw v ++ encodeIndexElements rest

end

def encodeIndexValue (v : Value) : Bytes := escapeZeros (encodeIndexValueRaw v)

def entryPrefixForIndex (name : Bytes) : Bytes := entryPrefix ++ name ++ [0]

def entryValuePrefix (name : Bytes) (v : Value) : Bytes :=
  entryPrefixForIndex name ++ encodeIndexValue v ++ [0, 0]

def entryKey (name : Bytes) (v : Value) (pk : Bytes) : Bytes := entryValuePrefix name v ++ pk

def splitValueAndPk (rest : Bytes) : Option (Bytes × Bytes) := splitTerminated rest

def pkFromEntryKey (name key : Bytes) : Option Bytes :=
  if (entryPrefixForIndex name).isPrefixOf key then
    (splitValueAndPk (key.drop (entryPrefixForIndex name).length)).map Prod.snd
  else none

namespace SecondaryIndex

def getDef (store : Store) (name : Bytes) : Option IndexDef :=
  store[defKey name]?.bind IndexDef.fromBytes

def defsForTable (store : Store) (table : Bytes) : List IndexDef :=
  ((store.scanPrefix defPrefix).filterMap fun r => store[r.1]?.bind IndexDef.fromBytes).filter
    fun d => d.table = table

def defForColumn (store : Store) (table column : Bytes) : Option IndexDef :=
  (defsForTable store table).find? fun d => d.column = column

def lookupEq (store : Store) (name : Bytes) (v : Value) : List Bytes :=
  (store.scanPrefix (entryValuePrefix name v)).filterMap fun r => pkFromEntryKey name r.1

/-- Both bounds are inclusive and compared with the encoded values; the tag of NULL is
skipped. -/
def lookupRange (store : Store) (name : Bytes) (low high : Option Value) : List Bytes :=
  (store.scanPrefix (entryPrefixForIndex name)).filterMap fun r =>
    (splitValueAndPk (r.1.drop (entryPrefixForIndex name).length)).bind fun p =>
      if p.1.head? = some 48 then none
      else if low.any fun lo => compare p.1 (encodeIndexValue lo) = .lt then none
      else if high.any fun hi => compare p.1 (encodeIndexValue hi) = .gt then none
      else pkFromEntryKey name r.1

/-- The keys that an index has for a predicate, each once. An exclusive bound is looked up
as an inclusive one. -/
def indexPkSet (store : Store) (table : Bytes) : FilterExpr → Option (List Bytes)
  | .eq column value =>
    (defForColumn store table column).map fun d => (lookupEq store d.name value).dedup
  | .gt column value =>
    (defForColumn store table column).map fun d =>
      (lookupRange store d.name (some value) none).dedup
  | .ge column value =>
    (defForColumn store table column).map fun d =>
      (lookupRange store d.name (some value) none).dedup
  | .lt column value =>
    (defForColumn store table column).map fun d =>
      (lookupRange store d.name none (some value)).dedup
  | .le column value =>
    (defForColumn store table column).map fun d =>
      (lookupRange store d.name none (some value)).dedup
  | _ => none

def insertEntry (name : Bytes) (pk : Bytes) (v : Value) : Bytes × Option Bytes :=
  (entryKey name v pk, some pk)

def deleteEntry (name : Bytes) (pk : Bytes) (v : Value) : Bytes × Option Bytes :=
  (entryKey name v pk, none)

def insertEntries (defs : List IndexDef) (ordered : Columns) (pk : Bytes) :
    List (Bytes × Option Bytes) :=
  defs.flatMap fun d => (cell ordered d.column).toList.map (insertEntry d.name pk)

def deleteEntries (defs : List IndexDef) (ordered : Columns) (pk : Bytes) :
    List (Bytes × Option Bytes) :=
  defs.flatMap fun d => (cell ordered d.column).toList.map (deleteEntry d.name pk)

def sameCell : Option Value → Option Value → Bool
  | some a, some b => a.eq b
  | none, none => true
  | _, _ => false

/-- Where the cell has changed, the old entry goes and a new one comes. -/
def moveEntries (defs : List IndexDef) (old new : Columns) (pk : Bytes) :
    List (Bytes × Option Bytes) :=
  defs.flatMap fun d =>
    if sameCell (cell old d.column) (cell new d.column) then []
    else (cell old d.column).toList.map (deleteEntry d.name pk) ++
      (cell new d.column).toList.map (insertEntry d.name pk)

def onRowInserted (store : Store) (table : Bytes) (ordered : Columns) (pk : Bytes) : Store :=
  store.apply (insertEntries (defsForTable store table) ordered pk)

def onRowDeleted (store : Store) (table : Bytes) (ordered : Columns) (pk : Bytes) : Store :=
  store.apply (deleteEntries (defsForTable store table) ordered pk)

def onRowUpdated (store : Store) (table : Bytes) (old new : Columns) (pk : Bytes) : Store :=
  store.apply (moveEntries (defsForTable store table) old new pk)

/-- One entry for every row that has the column. -/
def buildEntries (store : Store) (d : IndexDef) : List (Bytes × Option Bytes) :=
  (store.scanPrefix (tablePrefix d.table)).flatMap fun r =>
    (cell (decodeRow r.2) d.column).toList.map (insertEntry d.name r.1)

def buildFromTable (store : Store) (d : IndexDef) : Store := store.apply (buildEntries store d)

def createDef (store : Store) (d : IndexDef) : Except SqlError Store :=
  if (getDef store d.name).isSome then
    .error (.internal (ascii "index '" ++ d.name ++ ascii "' already exists"))
  else .ok (store.insert (defKey d.name) d.toBytes)

end SecondaryIndex

end GalaxDb.Sql
