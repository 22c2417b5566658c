import GalaxDb.Lib.Arrays
import GalaxDb.Lib.Bytes
import Mathlib.Logic.Function.Basic

/-!
# The four layouts of an inner node

An inner node of the adaptive radix tree keeps its children in sorted arrays, behind an
index table or in an array with a place for every byte. `none` is a panic: an index out of
its array, a counter out of its width, a failed assertion, an `unwrap` of nothing.
-/

namespace GalaxDb.InnerNodes

open Arrays

variable {α : Type}

/-- `n += 1` of a counter with this many bits. -/
def increment (bits n : Nat) : Option Nat := if n + 1 < 2 ^ bits then some (n + 1) else none

/-- `n -= 1`. -/
def decrement (n : Nat) : Option Nat := if n = 0 then none else some (n - 1)

def emptySlot : UInt8 := 255

/-- `0..=255u8`. -/
def allBytes : List UInt8 := (List.range 256).map UInt8.ofNat

/-- The layout of `Node4` and `Node16`. -/
structure SortedNode (capacity : Nat) (α : Type) where
  keys : Vector UInt8 capacity
  children : Vector (Option α) capacity
  count : Nat

namespace SortedNode

variable {capacity : Nat}

def new (capacity : Nat) : SortedNode capacity α :=
  ⟨Vector.replicate capacity 0, Vector.replicate capacity none, 0⟩

def isFull (n : SortedNode capacity α) : Bool := decide (capacity ≤ n.count)

/-- The rest of the search, `left` positions from `i` on. -/
def findFrom (n : SortedNode capacity α) (byte : UInt8) (i : Nat) : Nat → Option (Option α)
  | 0 => some none
  | left + 1 => do
    let key ← n.keys[i]?
    if key = byte then n.children[i]? else n.findFrom byte (i + 1) left

def findChild (n : SortedNode capacity α) (byte : UInt8) : Option (Option α) :=
  n.findFrom byte 0 n.count

def shiftRight (n : SortedNode capacity α) (i : Nat) : Option (SortedNode capacity α) := do
  let key ← n.keys[i]?
  let keys ← store n.keys (i + 1) key
  let children ← swap n.children i (i + 1)
  some ⟨keys, children, n.count⟩

def insertChild (n : SortedNode capacity α) (byte : UInt8) (child : α) :
    Option (SortedNode capacity α) :=
  if n.isFull then none
  else do
    let used ← front n.keys n.count
    let pos := (used.findIdx? fun k => decide (byte < k)).getD n.count
    let n ← (List.range' pos (n.count - pos)).reverse.foldlM shiftRight n
    let keys ← store n.keys pos byte
    let children ← store n.children pos (some child)
    let count ← increment 8 n.count
    some ⟨keys, children, count⟩

def shiftLeft (n : SortedNode capacity α) (i : Nat) : Option (SortedNode capacity α) := do
  let key ← n.keys[i + 1]?
  let keys ← store n.keys i key
  let children ← swap n.children i (i + 1)
  some ⟨keys, children, n.count⟩

def removeChild (n : SortedNode capacity α) (byte : UInt8) : Option (SortedNode capacity α) := do
  let used ← front n.keys n.count
  match used.findIdx? fun k => decide (k = byte) with
  | none => some n
  | some pos =>
    let children ← store n.children pos none
    let last ← decrement n.count
    let n ← (List.range' pos (last - pos)).foldlM shiftLeft ⟨n.keys, children, n.count⟩
    let keys ← store n.keys last 0
    some ⟨keys, n.children, last⟩

/-- One child moved to the same position of another node. -/
def moveChild {target : Nat} (s : SortedNode capacity α × SortedNode target α) (i : Nat) :
    Option (SortedNode capacity α × SortedNode target α) := do
  let key ← s.1.keys[i]?
  let keys ← store s.2.keys i key
  let child ← s.1.children[i]?
  let taken ← store s.1.children i none
  let children ← store s.2.children i child
  some (⟨s.1.keys, taken, s.1.count⟩, ⟨keys, children, s.2.count⟩)

/-- The loop of `into_node16` and `into_node4`. -/
def moveChildren (n : SortedNode capacity α) (target : Nat) : Option (SortedNode target α) := do
  let s ← (List.range' 0 n.count).foldlM moveChild (n, new target)
  some ⟨s.2.keys, s.2.children, n.count⟩

/-- `children[0].take().unwrap()`. -/
def takeSingle (n : SortedNode capacity α) : Option ((UInt8 × α) × SortedNode capacity α) := do
  let byte ← n.keys[0]?
  let child ← n.children[0]?
  let taken ← store n.children 0 none
  let child ← child
  some ((byte, child), ⟨n.keys, taken, 0⟩)

end SortedNode

abbrev Node4 (α : Type) := SortedNode 4 α

abbrev Node16 (α : Type) := SortedNode 16 α

structure Node48 (α : Type) where
  childIndex : Vector UInt8 256
  children : Vector (Option α) 48
  count : Nat

structure Node256 (α : Type) where
  children : Vector (Option α) 256
  count : Nat

def Node4.new : Node4 α := SortedNode.new 4

def Node4.intoNode16 (n : Node4 α) : Option (Node16 α) := n.moveChildren 16

def Node16.new : Node16 α := SortedNode.new 16

def Node16.intoNode4 (n : Node16 α) : Option (Node4 α) :=
  if n.count ≤ 4 then n.moveChildren 4 else none

def Node48.new : Node48 α := ⟨Vector.replicate 256 emptySlot, Vector.replicate 48 none, 0⟩

def Node256.new : Node256 α := ⟨Vector.replicate 256 none, 0⟩

/-- One turn of the loop of `into_node48`. -/
def Node16.moveIndexed (s : Node16 α × Node48 α) (i : Nat) : Option (Node16 α × Node48 α) := do
  let byte ← s.1.keys[i]?
  let childIndex ← store s.2.childIndex byte.toNat (UInt8.ofNat i)
  let child ← s.1.children[i]?
  let taken ← store s.1.children i none
  let children ← store s.2.children i child
  some (⟨s.1.keys, taken, s.1.count⟩, ⟨childIndex, children, s.2.count⟩)

def Node16.intoNode48 (n : Node16 α) : Option (Node48 α) := do
  let s ← (List.range' 0 n.count).foldlM moveIndexed (n, Node48.new)
  some ⟨s.2.childIndex, s.2.children, n.count⟩

namespace Node48

def isFull (n : Node48 α) : Bool := decide (48 ≤ n.count)

def findChild (n : Node48 α) (byte : UInt8) : Option (Option α) := do
  let idx ← n.childIndex[byte.toNat]?
  if idx = emptySlot then some none else n.children[idx.toNat]?

def insertChild (n : Node48 α) (byte : UInt8) (child : α) : Option (Node48 α) :=
  if n.isFull then none
  else do
    let slot ← n.children.toList.findIdx? Option.isNone
    let childIndex ← store n.childIndex byte.toNat (UInt8.ofNat slot)
    let children ← store n.children slot (some child)
    let count ← increment 8 n.count
    some ⟨childIndex, children, count⟩

def removeChild (n : Node48 α) (byte : UInt8) : Option (Node48 α) := do
  let idx ← n.childIndex[byte.toNat]?
  if idx = emptySlot then some n
  else
    let children ← store n.children idx.toNat none
    let childIndex ← store n.childIndex byte.toNat emptySlot
    let count ← decrement n.count
    some ⟨childIndex, children, count⟩

/-- One turn of the loop of `into_node16`; the last component is `j`. -/
def moveSorted (s : Node48 α × Node16 α × Nat) (byte : UInt8) :
    Option (Node48 α × Node16 α × Nat) := do
  let idx ← s.1.childIndex[byte.toNat]?
  if idx = emptySlot then some s
  else
    let keys ← store s.2.1.keys s.2.2 byte
    let child ← s.1.children[idx.toNat]?
    let taken ← store s.1.children idx.toNat none
    let children ← store s.2.1.children s.2.2 child
    some (⟨s.1.childIndex, taken, s.1.count⟩, ⟨keys, children, s.2.1.count⟩, s.2.2 + 1)

def intoNode16 (n : Node48 α) : Option (Node16 α) :=
  if n.count ≤ 16 then do
    let s ← allBytes.foldlM moveSorted (n, Node16.new, 0)
    some ⟨s.2.1.keys, s.2.1.children, s.2.2 % 256⟩
  else none

/-- One turn of the loop of `into_node256`; the last component is `count`. -/
def moveDirect (s : Node48 α × Node256 α × Nat) (byte : UInt8) :
    Option (Node48 α × Node256 α × Nat) := do
  let idx ← s.1.childIndex[byte.toNat]?
  if idx = emptySlot then some s
  else
    let child ← s.1.children[idx.toNat]?
    let taken ← store s.1.children idx.toNat none
    let children ← store s.2.1.children byte.toNat child
    let count ← increment 16 s.2.2
    some (⟨s.1.childIndex, taken, s.1.count⟩, ⟨children, s.2.1.count⟩, count)

def intoNode256 (n : Node48 α) : Option (Node256 α) := do
  let s ← allBytes.foldlM moveDirect (n, Node256.new, 0)
  some ⟨s.2.1.children, s.2.2⟩

/-- The search of `take_single_child` through the bytes left; reaching the end is a panic. -/
def takeFrom (n : Node48 α) : List UInt8 → Option ((UInt8 × α) × Node48 α)
  | [] => none
  | byte :: rest => do
    let idx ← n.childIndex[byte.toNat]?
    if idx = emptySlot then n.takeFrom rest
    else
      let child ← n.children[idx.toNat]?
      let taken ← store n.children idx.toNat none
      let child ← child
      let childIndex ← store n.childIndex byte.toNat emptySlot
      some ((byte, child), ⟨childIndex, taken, 0⟩)

end Node48

namespace Node256

def findChild (n : Node256 α) (byte : UInt8) : Option (Option α) := n.children[byte.toNat]?

def insertChild (n : Node256 α) (byte : UInt8) (child : α) : Option (Node256 α) := do
  let old ← n.children[byte.toNat]?
  if old.isNone then
    let children ← store n.children byte.toNat (some child)
    let count ← increment 16 n.count
    some ⟨children, count⟩
  else none

def removeChild (n : Node256 α) (byte : UInt8) : Option (Node256 α) := do
  let old ← n.children[byte.toNat]?
  if old.isSome then
    let children ← store n.children byte.toNat none
    let count ← decrement n.count
    some ⟨children, count⟩
  else some n

/-- One turn of the loop of `into_node48`; the last component is `j`. -/
def moveIndexed (s : Node256 α × Node48 α × Nat) (byte : UInt8) :
    Option (Node256 α × Node48 α × Nat) := do
  let child ← s.1.children[byte.toNat]?
  if child.isSome then
    let childIndex ← store s.2.1.childIndex byte.toNat (UInt8.ofNat s.2.2)
    let taken ← store s.1.children byte.toNat none
    let children ← store s.2.1.children s.2.2 child
    let j ← increment 8 s.2.2
    some (⟨taken, s.1.count⟩, ⟨childIndex, children, s.2.1.count⟩, j)
  else some s

def intoNode48 (n : Node256 α) : Option (Node48 α) :=
  if n.count ≤ 48 then do
    let s ← allBytes.foldlM moveIndexed (n, Node48.new, 0)
    some ⟨s.2.1.childIndex, s.2.1.children, s.2.2⟩
  else none

def takeFrom (n : Node256 α) : List UInt8 → Option ((UInt8 × α) × Node256 α)
  | [] => none
  | byte :: rest => do
    let child ← n.children[byte.toNat]?
    match child with
    | none => n.takeFrom rest
    | some child =>
      let taken ← store n.children byte.toNat none
      some ((byte, child), ⟨taken, 0⟩)

end Node256

inductive NodeType (α : Type) where
  | node4 (n : Node4 α)
  | node16 (n : Node16 α)
  | node48 (n : Node48 α)
  | node256 (n : Node256 α)

structure InnerNode (α : Type) where
  pfx : Bytes
  nodeType : NodeType α

namespace NodeType

def findChild (byte : UInt8) : NodeType α → Option (Option α)
  | node4 n => n.findChild byte
  | node16 n => n.findChild byte
  | node48 n => n.findChild byte
  | node256 n => n.findChild byte

def numChildren : NodeType α → Nat
  | node4 n => n.count
  | node16 n => n.count
  | node48 n => n.count
  | node256 n => n.count

def isFull : NodeType α → Bool
  | node4 n => n.isFull
  | node16 n => n.isFull
  | node48 n => n.isFull
  | node256 _ => false

def shouldShrink : NodeType α → Bool
  | node4 _ => false
  | node16 n => decide (n.count ≤ 4)
  | node48 n => decide (n.count ≤ 16)
  | node256 n => decide (n.count ≤ 48)

def grow : NodeType α → Option (NodeType α)
  | node4 n => (Node4.intoNode16 n).map node16
  | node16 n => (Node16.intoNode48 n).map node48
  | node48 n => n.intoNode256.map node256
  | node256 _ => none

def shrink : NodeType α → Option (NodeType α)
  | node4 _ => none
  | node16 n => (Node16.intoNode4 n).map node4
  | node48 n => n.intoNode16.map node16
  | node256 n => n.intoNode48.map node48

/-- Grow if the current node type is full. -/
def growIfFull (t : NodeType α) : Option (NodeType α) := if t.isFull then t.grow else some t

/-- Shrink if under-utilized. -/
def shrinkIfSparse (t : NodeType α) : Option (NodeType α) :=
  if t.shouldShrink then t.shrink else some t

def insertChild (byte : UInt8) (child : α) : NodeType α → Option (NodeType α)
  | node4 n => (n.insertChild byte child).map node4
  | node16 n => (n.insertChild byte child).map node16
  | node48 n => (n.insertChild byte child).map node48
  | node256 n => (n.insertChild byte child).map node256

def removeChild (byte : UInt8) : NodeType α → Option (NodeType α)
  | node4 n => (n.removeChild byte).map node4
  | node16 n => (n.removeChild byte).map node16
  | node48 n => (n.removeChild byte).map node48
  | node256 n => (n.removeChild byte).map node256

def takeSingle : NodeType α → Option ((UInt8 × α) × NodeType α)
  | node4 n => n.takeSingle.map (Prod.map id node4)
  | node16 n => n.takeSingle.map (Prod.map id node16)
  | node48 n => (n.takeFrom allBytes).map (Prod.map id node48)
  | node256 n => (n.takeFrom allBytes).map (Prod.map id node256)

end NodeType

namespace InnerNode

def newNode4 : InnerNode α := ⟨[], .node4 Node4.new⟩

def findChild (node : InnerNode α) (byte : UInt8) : Option (Option α) :=
  node.nodeType.findChild byte

def numChildren (node : InnerNode α) : Nat := node.nodeType.numChildren

def addChild (node : InnerNode α) (byte : UInt8) (child : α) : Option (InnerNode α) := do
  let grown ← node.nodeType.growIfFull
  let nodeType ← grown.insertChild byte child
  some ⟨node.pfx, nodeType⟩

def removeChild (node : InnerNode α) (byte : UInt8) : Option (InnerNode α) := do
  let removed ← node.nodeType.removeChild byte
  let nodeType ← removed.shrinkIfSparse
  some ⟨node.pfx, nodeType⟩

def takeSingleChild (node : InnerNode α) : Option ((UInt8 × α) × InnerNode α) :=
  if node.numChildren = 1 then do
    let (taken, nodeType) ← node.nodeType.takeSingle
    some (taken, ⟨node.pfx, nodeType⟩)
  else none

end InnerNode

/-- A call on a node. -/
inductive Call (α : Type) where
  | add (byte : UInt8) (child : α)
  | remove (byte : UInt8)
  | takeSingle

def InnerNode.call (node : InnerNode α) : Call α → Option (InnerNode α)
  | .add byte child => node.addChild byte child
  | .remove byte => node.removeChild byte
  | .takeSingle => node.takeSingleChild.map Prod.snd

end GalaxDb.InnerNodes
