import GalaxDb.Lib.Bytes

/-!
# Adaptive radix tree

The primary-key index. An inner node keeps its children in byte order, whatever its
capacity class; the class is kept because growing out of a sixteen-slot node re-indexes
the children by byte. Past the end of a key the tree reads the byte zero.
-/

namespace GalaxDb

universe u

variable {V : Type u}

/-- The four capacity classes. A node of class 48 may hold children that its byte index
no longer reaches; they only count. -/
inductive NodeType where
  | node4
  | node16
  | node48 (unreachable : Nat)
  | node256
  deriving DecidableEq

mutual

inductive ArtNode (V : Type u) where
  | leaf (key : Bytes) (value : V)
  | inner (pfx : Bytes) (nodeType : NodeType) (children : Children V)

inductive Children (V : Type u) where
  | nil
  | cons (byte : UInt8) (child : ArtNode V) (rest : Children V)

end

def commonPrefixLen : Bytes → Bytes → Nat
  | a :: as, b :: bs => if a = b then commonPrefixLen as bs + 1 else 0
  | _, _ => 0

/-- `key.get(i).copied().unwrap_or(0)`. -/
def byteAt (key : Bytes) (i : Nat) : UInt8 :=
  key[i]?.getD 0

namespace Children

def length : Children V → Nat
  | nil => 0
  | cons _ _ rest => rest.length + 1

def bytes : Children V → List UInt8
  | nil => []
  | cons byte _ rest => byte :: rest.bytes

/-- In front of the first child with a greater byte. -/
def insertSorted (byte : UInt8) (child : ArtNode V) : Children V → Children V
  | nil => cons byte child nil
  | cons b c rest =>
    if byte < b then cons byte child (cons b c rest)
    else cons b c (insertSorted byte child rest)

/-- Indexing children by byte keeps the last one of each byte. -/
def keepLast : Children V → Children V
  | nil => nil
  | cons b c rest => if b ∈ rest.bytes then rest.keepLast else cons b c rest.keepLast

end Children

namespace NodeType

/-- The child count that decides about growing and shrinking. -/
def numChildren (children : Children V) : NodeType → Nat
  | node48 unreachable => children.length + unreachable
  | _ => children.length

def isFull (children : Children V) : NodeType → Bool
  | node4 => decide (4 ≤ children.length)
  | node16 => decide (16 ≤ children.length)
  | node48 unreachable => decide (48 ≤ children.length + unreachable)
  | node256 => false

def grow (children : Children V) : NodeType → NodeType × Children V
  | node4 => (node16, children)
  | node16 => (node48 (children.length - children.keepLast.length), children.keepLast)
  | node48 _ => (node256, children)
  | node256 => (node256, children)

def shouldShrink (children : Children V) : NodeType → Bool
  | node4 => false
  | node16 => decide (children.length ≤ 4)
  | node48 unreachable => decide (children.length + unreachable ≤ 16)
  | node256 => decide (children.length ≤ 48)

def shrink : NodeType → NodeType
  | node4 => node4
  | node16 => node4
  | node48 _ => node16
  | node256 => node48 0

end NodeType

namespace ArtNode

def addChild (byte : UInt8) (child : ArtNode V) (nodeType : NodeType) (children : Children V) :
    NodeType × Children V :=
  let grown := if nodeType.isFull children then nodeType.grow children else (nodeType, children)
  (grown.1, grown.2.insertSorted byte child)

/-- An inner node that has just been given its two first children. -/
def newNode4 (pfx : Bytes) (oldByte : UInt8) (old : ArtNode V) (newByte : UInt8)
    (new : ArtNode V) : ArtNode V :=
  let one := addChild oldByte old .node4 .nil
  let two := addChild newByte new one.1 one.2
  .inner pfx two.1 two.2

mutual

def lookupRecursive (key : Bytes) : ArtNode V → Nat → Option V
  | .leaf leafKey value, _ => if leafKey = key then some value else none
  | .inner pfx _ children, depth =>
    if commonPrefixLen pfx (key.drop depth) < pfx.length then none
    else
      let nextDepth := depth + pfx.length
      lookupChild key (byteAt key nextDepth) children (nextDepth + 1)

def lookupChild (key : Bytes) (byte : UInt8) : Children V → Nat → Option V
  | .nil, _ => none
  | .cons b child rest, depth =>
    if b = byte then lookupRecursive key child depth else lookupChild key byte rest depth

end

mutual

/-- The node after the insert and whether a value was replaced. Splitting a leaf slices
both keys from `depth` on, which panics when either one is shorter. -/
def insertRecursive (key : Bytes) (value : V) : ArtNode V → Nat → Option (ArtNode V × Bool)
  | .leaf oldKey oldValue, depth =>
    if oldKey = key then some (.leaf oldKey value, true)
    else if oldKey.length < depth ∨ key.length < depth then none
    else
      let prefixLen := commonPrefixLen (oldKey.drop depth) (key.drop depth)
      let splitDepth := depth + prefixLen
      some (newNode4 ((key.drop depth).take prefixLen)
        (byteAt oldKey splitDepth) (.leaf oldKey oldValue)
        (byteAt key splitDepth) (.leaf key value), false)
  | .inner pfx nodeType children, depth =>
    let matchLen := commonPrefixLen pfx (key.drop depth)
    if matchLen < pfx.length then
      some (newNode4 (pfx.take matchLen)
        (byteAt pfx matchLen) (.inner (pfx.drop (matchLen + 1)) nodeType children)
        (byteAt key (depth + matchLen)) (.leaf key value), false)
    else
      let nextDepth := depth + pfx.length
      let byte := byteAt key nextDepth
      if byte ∈ children.bytes then
        (insertChild key value byte children (nextDepth + 1)).map
          (fun r => (.inner pfx nodeType r.1, r.2))
      else
        let added := addChild byte (.leaf key value) nodeType children
        some (.inner pfx added.1 added.2, false)

def insertChild (key : Bytes) (value : V) (byte : UInt8) :
    Children V → Nat → Option (Children V × Bool)
  | .nil, _ => some (.nil, false)
  | .cons b child rest, depth =>
    if b = byte then
      (insertRecursive key value child depth).map (fun r => (.cons b r.1 rest, r.2))
    else (insertChild key value byte rest depth).map (fun r => (.cons b child r.1, r.2))

end

/-- Clean-up of an inner node that has lost a child. -/
def collapse (pfx : Bytes) (nodeType : NodeType) (children : Children V) : Option (ArtNode V) :=
  let shrunk := if nodeType.shouldShrink children then nodeType.shrink else nodeType
  if shrunk.numChildren children = 1 then
    match children with
    | .cons byte (.inner childPfx childType grandchildren) _ =>
      some (.inner (pfx ++ byte :: childPfx) childType grandchildren)
    | .cons _ (.leaf key value) _ => some (.leaf key value)
    | .nil => none
  else if shrunk.numChildren children = 0 then none
  else some (.inner pfx shrunk children)

mutual

/-- What is left of the node and the removed value. -/
def deleteRecursive (key : Bytes) : ArtNode V → Nat → Option (ArtNode V) × Option V
  | .leaf leafKey value, _ =>
    if leafKey = key then (none, some value) else (some (.leaf leafKey value), none)
  | .inner pfx nodeType children, depth =>
    if commonPrefixLen pfx (key.drop depth) < pfx.length then
      (some (.inner pfx nodeType children), none)
    else
      let nextDepth := depth + pfx.length
      let r := deleteChild key (byteAt key nextDepth) children (nextDepth + 1)
      -- a child that is gone is removed from the node, one that only changed stays
      if r.2.1 then (collapse pfx nodeType r.1, r.2.2)
      else (some (.inner pfx nodeType r.1), r.2.2)

def deleteChild (key : Bytes) (byte : UInt8) : Children V → Nat → Children V × Bool × Option V
  | .nil, _ => (.nil, false, none)
  | .cons b child rest, depth =>
    if b = byte then
      match deleteRecursive key child depth with
      | (none, value) => (rest, true, value)
      | (some child', value) => (.cons b child' rest, false, value)
    else
      let r := deleteChild key byte rest depth
      (.cons b child r.1, r.2)

end

end ArtNode

structure ArtIndex (V : Type u) where
  root : Option (ArtNode V)
  len : Nat

namespace ArtIndex

def new : ArtIndex V := ⟨none, 0⟩

/-- No result is a panic inside the tree. -/
def insert (t : ArtIndex V) (key : Bytes) (value : V) : Option (ArtIndex V) :=
  match t.root with
  | none => some ⟨some (.leaf key value), t.len + 1⟩
  | some root =>
    (root.insertRecursive key value 0).map (fun r => ⟨some r.1, if r.2 then t.len else t.len + 1⟩)

def lookup (t : ArtIndex V) (key : Bytes) : Option V :=
  t.root.bind (fun root => root.lookupRecursive key 0)

def delete (t : ArtIndex V) (key : Bytes) : ArtIndex V :=
  match t.root with
  | none => t
  | some root =>
    let r := root.deleteRecursive key 0
    ⟨r.1, if r.2.isSome then t.len - 1 else t.len⟩

end ArtIndex

end GalaxDb
