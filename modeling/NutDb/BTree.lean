/-
  The B-tree index in memory (`src/btree.rs`).

  Nodes live in an arena (`nodes`) and refer to their children by index.
  Every place where the source can stop (an index, an `expect`, an
  `unreachable!`) is a panic here.  The recursive functions take the number of
  nested calls they may make; an arena of `n` nodes whose walk needs more than
  `n + 1` of them contains a cycle, on which the source recurses until the stack
  is exhausted.

  The walk takes also which vectors there is room for.  The vector of a tree in
  memory has an element for each of its keys, and so it is given room for all of
  them (`collectWith`); this is different for a tree that comes from a file, whose
  nodes may share children (`Machine` of `NutDb.Snapshot`).
-/
import NutDb.Lib.Room
import NutDb.Lib.Sorted

namespace NutDb

open Lib

namespace BTree

def MIN_DEGREE : ℕ := 8
def MAX_KEYS : ℕ := MIN_DEGREE * 2 - 1

/-- A node of the arena. -/
structure Node where
  keys : List String := []
  values : List String := []
  children : List ℕ := []
  deriving DecidableEq, Repr

/-- `Node::leaf`. -/
def Node.leaf (n : Node) : Bool := n.children.isEmpty

/-- Recursion without end. -/
def overflow {α : Type} : Res α := .error (.panic .stackOverflow)

/-- `get_from`. -/
def getFrom (nodes : List Node) : ℕ → ℕ → String → Res (Option String)
  | 0, _, _ => overflow
  | depth + 1, id, key => do
    let node ← Res.get nodes id
    match binarySearch node.keys key with
    | .ok index => do
      let value ← Res.get node.values index
      return some value
    | .error index =>
      if node.leaf then return none
      else do
        let child ← Res.get node.children index
        getFrom nodes depth child key

/-- `replace`: overwrite the value of a key that is in the tree. -/
def replace (nodes : List Node) (key value : String) : ℕ → ℕ → Res (Bool × List Node)
  | 0, _ => overflow
  | depth + 1, id => do
    let node ← Res.get nodes id
    match binarySearch node.keys key with
    | .ok index => do
      let values ← Res.setAt node.values index value
      let nodes ← Res.setAt nodes id { node with values := values }
      return (true, nodes)
    | .error index =>
      if node.leaf then return (false, nodes)
      else do
        let child ← Res.get node.children index
        replace nodes key value depth child

/-- `Vec::pop` with its `expect`: what stays and the last element. -/
def popFull {α : Type} (l : List α) : Res (List α × α) :=
  match l.getLast? with
  | some a => .ok (l.dropLast, a)
  | none => .error (.panic (.expect "full child"))

/-- The children that stay with the lower half of a node, and those of the upper half. -/
def splitChildren (left : Node) : Res (List ℕ × List ℕ) :=
  if left.leaf then .ok (left.children, []) else Res.splitOff left.children MIN_DEGREE

/-- `split_child`: split the full child `childIndex` of `parentId` around its median. -/
def splitChild (nodes : List Node) (parentId childIndex : ℕ) : Res (List Node) := do
  let parent ← Res.get nodes parentId
  let childId ← Res.get parent.children childIndex
  let left ← Res.get nodes childId
  let (leftKeys, rightKeys) ← Res.splitOff left.keys MIN_DEGREE
  let (leftKeys, medianKey) ← popFull leftKeys
  let (leftValues, rightValues) ← Res.splitOff left.values MIN_DEGREE
  let (leftValues, medianValue) ← popFull leftValues
  let (leftChildren, rightChildren) ← splitChildren left
  let nodes ← Res.setAt nodes childId ⟨leftKeys, leftValues, leftChildren⟩
  let nodes := nodes ++ [⟨rightKeys, rightValues, rightChildren⟩]
  let rightId := nodes.length - 1
  let parent ← Res.get nodes parentId
  let keys ← Res.insertAt parent.keys childIndex medianKey
  let values ← Res.insertAt parent.values childIndex medianValue
  let children ← Res.insertAt parent.children (childIndex + 1) rightId
  Res.setAt nodes parentId ⟨keys, values, children⟩

/-- The middle of `insert_non_full`: split the child at `index` if it is full, and choose the half
    that the key belongs to. -/
def splitIfFull (key : String) (nodes : List Node) (id index : ℕ) (child : Node) :
    Res (List Node × ℕ) :=
  if child.keys.length = MAX_KEYS then do
    let nodes ← splitChild nodes id index
    let node ← Res.get nodes id
    let median ← Res.get node.keys index
    if median < key then return (nodes, index + 1)
    else if key = median then .error (.panic (.unreachable "duplicate after split"))
    else return (nodes, index)
  else .ok (nodes, index)

/-- `insert_non_full`: insert a key that is not in the tree below a node that is not full. -/
def insertNonFull (key value : String) : ℕ → List Node → ℕ → Res (List Node)
  | 0, _, _ => overflow
  | depth + 1, nodes, id => do
    let node ← Res.get nodes id
    match binarySearch node.keys key with
    | .ok _ => .error (.panic (.expect "duplicates replaced before insert"))
    | .error index =>
      if node.leaf then do
        let keys ← Res.insertAt node.keys index key
        let values ← Res.insertAt node.values index value
        Res.setAt nodes id { node with keys := keys, values := values }
      else do
        let childId ← Res.get node.children index
        let child ← Res.get nodes childId
        let (nodes, index) ← splitIfFull key nodes id index child
        let node ← Res.get nodes id
        let childId ← Res.get node.children index
        insertNonFull key value depth nodes childId

/-- The in-order walk of `collect` and `collect_keys`, with a vector that holds what `room` says;
    `item` is what they push for the key at an index of a node. -/
def collectIn {α : Type} (room : List α → Bool) (item : Node → ℕ → Res α) (nodes : List Node) :
    ℕ → ℕ → List α → Res (List α)
  | 0, _, _ => overflow
  | depth + 1, id, out => do
    let node ← Res.get nodes id
    let out ← (List.range node.keys.length).foldlM (fun out index => do
      let out ←
        if node.leaf then pure out
        else do
          let child ← Res.get node.children index
          collectIn room item nodes depth child out
      let x ← item node index
      pushIn room out x) out
    if node.leaf then return out
    else do
      let child ← Res.get node.children node.keys.length
      collectIn room item nodes depth child out

/-- The walk of a tree in memory. -/
def collectWith {α : Type} (item : Node → ℕ → Res α) : List Node → ℕ → ℕ → List α → Res (List α) :=
  collectIn (fun _ => true) item

/-- What `collect` pushes for a key. -/
def pairAt (node : Node) (index : ℕ) : Res (String × String) := do
  let key ← Res.get node.keys index
  let value ← Res.get node.values index
  return (key, value)

/-- `collect`. -/
def collect : List Node → ℕ → ℕ → List (String × String) → Res (List (String × String)) :=
  collectWith pairAt

/-- `collect_keys`. -/
def collectKeys : List Node → ℕ → ℕ → List String → Res (List String) :=
  collectWith fun node index => Res.get node.keys index

end BTree

open BTree

/-- `BTreeIndex`. -/
structure BTreeIndex where
  nodes : List Node
  root : ℕ
  len : ℕ
  deriving DecidableEq, Repr

namespace BTreeIndex

/-- `BTreeIndex::new`. -/
def new : BTreeIndex := ⟨[{}], 0, 0⟩

/-- Nested calls that a walk of an acyclic arena can need. -/
def depth (t : BTreeIndex) : ℕ := t.nodes.length + 1

/-- `BTreeIndex::is_empty`. -/
def isEmpty (t : BTreeIndex) : Bool := t.len == 0

/-- `BTreeIndex::get`. -/
def get (t : BTreeIndex) (key : String) : Res (Option String) := getFrom t.nodes t.depth t.root key

/-- The middle of `insert`: put a new root above a full one and split it. -/
def growRoot (nodes : List Node) (root : ℕ) (rootNode : Node) : Res (List Node × ℕ) :=
  if rootNode.keys.length = MAX_KEYS then do
    let nodes := nodes ++ [{ children := [root] }]
    let root := nodes.length - 1
    let nodes ← splitChild nodes root 0
    return (nodes, root)
  else .ok (nodes, root)

/-- `BTreeIndex::insert`. -/
def insert (t : BTreeIndex) (key value : String) : Res BTreeIndex := do
  let (found, nodes) ← replace t.nodes key value t.depth t.root
  if found then return { t with nodes := nodes }
  else do
    let rootNode ← Res.get nodes t.root
    let (nodes, root) ← growRoot nodes t.root rootNode
    let nodes ← insertNonFull key value (nodes.length + 1) nodes root
    return ⟨nodes, root, t.len + 1⟩

/-- `BTreeIndex::entries`. -/
def entries (t : BTreeIndex) : Res (List (String × String)) := collect t.nodes t.depth t.root []

/-- `BTreeIndex::keys`. -/
def keys (t : BTreeIndex) : Res (List String) := collectKeys t.nodes t.depth t.root []

/-- `BTreeIndex::range`. -/
def range (t : BTreeIndex) (start stop : String) : Res (List (String × String)) := do
  let all ← t.entries
  return all.filter fun e => decide (start ≤ e.1) && decide (e.1 < stop)

/-- `BTreeIndex::delete`: rebuild the tree from the entries that stay. -/
def delete (t : BTreeIndex) (key : String) : Res (Bool × BTreeIndex) := do
  match ← t.get key with
  | none => return (false, t)
  | some _ => do
    let all ← t.entries
    let retained := all.filter fun e => decide (e.1 ≠ key)
    let t ← retained.foldlM (fun t e => t.insert e.1 e.2) new
    return (true, t)

end BTreeIndex

end NutDb
