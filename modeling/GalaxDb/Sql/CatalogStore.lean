import GalaxDb.Sql.SecondaryIndex

/-!
# The catalog and the grants on disk

Table definitions are records of text lines, one key for each table; the catalog in memory
is read from them when the database opens. Roles and grants have keys of their own. None
of these keys is the key of a row, as long as no table name starts with a zero byte.
-/

namespace GalaxDb.Sql

open Bytes

inductive StorageMode where
  | columnar
  | legacy
  deriving DecidableEq

structure StoredColumn extends CatalogColumn where
  dataType : Bytes
  nullable : Bool
  deriving DecidableEq

/-- A table definition with all that its record has. -/
structure StoredTable where
  name : Bytes
  columns : List StoredColumn
  hasEmbedding : Bool
  appendOnly : Bool
  storageMode : StorageMode
  deriving DecidableEq

/-- What the statements read of a definition. -/
def StoredTable.entry (t : StoredTable) : TableEntry :=
  ⟨t.name, t.columns.map StoredColumn.toCatalogColumn, t.appendOnly⟩

namespace CatalogStore

def catalogKeyPrefix : Bytes := 0 :: ascii "__galaxdb_catalog__:"

def catalogKey (table : Bytes) : Bytes := catalogKeyPrefix ++ table

def catalogMagic : Bytes := ascii "GXCAT"

def catalogFormatVersion : Nat := 1

def boolStr (b : Bool) : Bytes := if b then ascii "1" else ascii "0"

def parseBool (s : Bytes) : Option Bool :=
  if s = ascii "1" then some true else if s = ascii "0" then some false else none

def storageStr : StorageMode → Bytes
  | .columnar => ascii "C"
  | .legacy => ascii "L"

def parseStorage (s : Bytes) : Option StorageMode :=
  if s = ascii "C" then some .columnar else if s = ascii "L" then some .legacy else none

def columnLines (c : StoredColumn) : List Bytes :=
  [c.name, c.dataType, boolStr c.nullable, boolStr c.primaryKey, boolStr c.isEmbeddingSource]

def tableLines (t : StoredTable) : List Bytes :=
  [catalogMagic ++ natDigits catalogFormatVersion, t.name, boolStr t.hasEmbedding,
    boolStr t.appendOnly, storageStr t.storageMode, natDigits t.columns.length] ++
    t.columns.flatMap columnLines

def encodeTableEntry (t : StoredTable) : Bytes := [10].intercalate (tableLines t)

/-- Five lines for each column; lines after the last are not read. -/
def decodeColumns : Nat → List Bytes → Option (List StoredColumn)
  | 0, _ => some []
  | n + 1, name :: dataType :: nullable :: primaryKey :: isSource :: rest => do
    let nullable ← parseBool nullable
    let primaryKey ← parseBool primaryKey
    let isSource ← parseBool isSource
    let later ← decodeColumns n rest
    some (⟨⟨name, primaryKey, isSource⟩, dataType, nullable⟩ :: later)
  | _ + 1, _ => none

def decodeLines : List Bytes → Option StoredTable
  | magic :: name :: hasEmbedding :: appendOnly :: mode :: count :: rest =>
    if magic ≠ ascii "GXCAT1" then none
    else do
      let hasEmbedding ← parseBool hasEmbedding
      let appendOnly ← parseBool appendOnly
      let mode ← parseStorage mode
      let count ← parseU64 count
      let columns ← decodeColumns count rest
      some ⟨name, columns, hasEmbedding, appendOnly, mode⟩
  | _ => none

def decodeTableEntry (bytes : Bytes) : Option StoredTable := decodeLines (bytes.splitOn 10)

/-- `str::parse::<u16>` of what follows the tag. -/
def catalogRecordVersion (bytes : Bytes) : Option Nat :=
  (bytes.splitOn 10).head?.bind fun line =>
    if catalogMagic.isPrefixOf line then
      (parseU64 (line.drop catalogMagic.length)).bind fun v => if v < 2 ^ 16 then some v else none
    else none

def checkVersion (found : Nat) : Except SqlError Unit :=
  if found < 1 then .error (.formatTooOld (ascii "catalog") found 1)
  else if catalogFormatVersion < found then
    .error (.formatTooNew (ascii "catalog") found catalogFormatVersion)
  else .ok ()

/-- A record of another version stops the load; one that does not decode is skipped. -/
def loadRecords : List Bytes → Except SqlError (List StoredTable)
  | [] => .ok []
  | bytes :: rest => do
    match catalogRecordVersion bytes with
    | some version => checkVersion version
    | none => .ok ()
    let later ← loadRecords rest
    .ok ((decodeTableEntry bytes).toList ++ later)

def loadAll (store : Store) : Except SqlError (List StoredTable) :=
  loadRecords ((store.scanPrefix catalogKeyPrefix).map Prod.snd)

/-- The first definition of a name counts. -/
def catalogOf (loaded : List StoredTable) : List StoredTable :=
  loaded.foldl (fun catalog t =>
    if catalog.any fun t' => t'.name = t.name then catalog else catalog ++ [t]) []

end CatalogStore

inductive Action where
  | select
  | insert
  | update
  | delete
  | ddl
  | admin
  deriving DecidableEq

def Action.label : Action → Bytes
  | .select => ascii "select"
  | .insert => ascii "insert"
  | .update => ascii "update"
  | .delete => ascii "delete"
  | .ddl => ascii "ddl"
  | .admin => ascii "admin"

structure ScramVerifier where
  salt : Bytes
  iterations : Nat
  storedKey : Bytes
  serverKey : Bytes
  deriving DecidableEq

def ScramVerifier.toBytes (v : ScramVerifier) : Bytes :=
  1 :: toLe 4 v.iterations ++ toLe 2 v.salt.length ++ v.salt ++ v.storedKey ++ v.serverKey

/-- Both keys have 32 bytes. -/
def ScramVerifier.fromBytes (bytes : Bytes) : Option ScramVerifier :=
  if bytes.length < 7 ∨ bytes.head? ≠ some 1 then none
  else
    let saltLen := ofLe ((bytes.drop 5).take 2)
    if bytes.length ≠ 7 + saltLen + 64 then none
    else some ⟨(bytes.drop 7).take saltLen, ofLe ((bytes.drop 1).take 4),
      (bytes.drop (7 + saltLen)).take 32, bytes.drop (7 + saltLen + 32)⟩

structure RoleRecord where
  name : Bytes
  isSuperuser : Bool
  verifier : Option ScramVerifier
  deriving DecidableEq

def RoleRecord.toBytes (r : RoleRecord) : Bytes :=
  (if r.isSuperuser then 1 else 0) :: toLe 2 r.name.length ++ r.name ++ match r.verifier with
    | some v => 1 :: v.toBytes
    | none => [0]

def RoleRecord.fromBytes (bytes : Bytes) : Option RoleRecord :=
  if bytes.length < 4 then none
  else
    let nameEnd := 3 + ofLe ((bytes.drop 1).take 2)
    match bytes.drop nameEnd with
    | [] => none
    | flag :: rest =>
      let record : Option ScramVerifier → RoleRecord :=
        RoleRecord.mk ((bytes.drop 3).take (nameEnd - 3)) (bytes.head? ≠ some 0)
      if flag = 0 then some (record none)
      else (ScramVerifier.fromBytes rest).map fun v => record (some v)

namespace AuthStore

def rolePrefix : Bytes := 0 :: ascii "galaxdb_auth" ++ 0 :: ascii "role" ++ [0]

def grantPrefix : Bytes := 0 :: ascii "galaxdb_auth" ++ 0 :: ascii "grant" ++ [0]

def roleKey (name : Bytes) : Bytes := rolePrefix ++ name

def grantKey (role table : Bytes) (privilege : Action) : Bytes :=
  grantPrefix ++ role ++ 0 :: table ++ 0 :: privilege.label

def actionFromLabel (label : Bytes) : Option Action :=
  [.select, .insert, .update, .delete, .ddl, .admin].find? fun a => a.label = label

/-- Role, table and privilege up to the zeros between them. -/
def parseGrantKey (key : Bytes) : Option (Bytes × Bytes × Action) :=
  if grantPrefix.isPrefixOf key then
    match (key.drop grantPrefix.length).splitOn 0 with
    | role :: table :: label :: _ => (actionFromLabel label).map fun a => (role, table, a)
    | _ => none
  else none

def listGrants (store : Store) : List (Bytes × Bytes × Action) :=
  (store.scanPrefix grantPrefix).filterMap fun r => parseGrantKey r.1

def getRole (store : Store) (name : Bytes) : Option RoleRecord :=
  store[roleKey name]?.bind RoleRecord.fromBytes

def hasGrant (store : Store) (role table : Bytes) (privilege : Action) : Bool :=
  store[grantKey role table privilege]?.isSome

end AuthStore

end GalaxDb.Sql
