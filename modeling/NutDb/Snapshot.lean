/-
  Page snapshots of the B-tree index (`BTreeIndex::save`, `load`,
  `publish_snapshot` of `src/btree.rs`).

  A save writes one page for the metadata and one for each node through the
  pager into `.pages.tmp`, and then publishes it by renaming.  What a call does
  to the directory is the list of operations it issues.  `loadExact` has memory for
  all entries of a tree; `loadExactOn` is the same on a machine, whose stack and
  memory a file can exhaust.
-/
import NutDb.BTreeSpec
import NutDb.Pager

namespace NutDb

open Lib BTree

/-- The files of a store: the log, the snapshot, and the snapshot's two companions. -/
inductive FileName where
  | wal | pages | tmp | bak
  deriving DecidableEq, Repr

namespace BTreeIndex

/-! ## Cells -/

/-- `encode_pair`. -/
def encodePair (key value : String) : Res Bytes :=
  if (utf8 key).length < 2 ^ 32 then
    if (utf8 value).length < 2 ^ 32 then
      .ok (le 4 (utf8 key).length ++ le 4 (utf8 value).length ++ utf8 key ++ utf8 value)
    else Res.fail .invalidInput "btree: value too large"
  else Res.fail .invalidInput "btree: key too large"

/-- `decode_pair`: key, value, and the bytes used. -/
def decodePair (cell : Bytes) : Res (String × String × ℕ) :=
  if cell.length < 8 then Res.fail .invalidData "btree: short cell"
  else do
    let keyLen := ofLe (slice cell 0 4)
    let valueLen := ofLe (slice cell 4 4)
    let keyEnd := 8 + keyLen
    let valueEnd := keyEnd + valueLen
    if valueEnd ≤ cell.length then do
      let key ← Res.ofOption .invalidData "btree: key is not UTF-8" (ofUtf8 (slice cell 8 keyLen))
      let value ← Res.ofOption .invalidData "btree: value is not UTF-8"
        (ofUtf8 (slice cell keyEnd valueLen))
      return (key, value, valueEnd)
    else Res.fail .invalidData "btree: value exceeds cell"

/-- `take_u64`. -/
def takeU64 (bytes : Bytes) (offset : ℕ) : Res ℕ :=
  if offset + 8 ≤ bytes.length then .ok (ofLe (slice bytes offset 8))
  else Res.fail .invalidData "btree: missing u64"

/-- `page_to_index`. -/
def pageToIndex (page count : ℕ) : Res ℕ :=
  if page ≠ 0 ∧ page - 1 < count then .ok (page - 1)
  else Res.fail .invalidData "btree: child page out of range"

/-- The page number of a node, as written to a page. -/
def pageNumber (id : ℕ) : Bytes := le 8 (id + 1)

/-! ## Writing -/

/-- The page that starts the cells of a node: an inner node begins with its leftmost child. -/
def startPage (node : Node) : Res Page :=
  if node.leaf then SlottedPage.new .leaf
  else do
    let page ← SlottedPage.new .internal
    let child ← Res.get node.children 0
    SlottedPage.insert page (pageNumber child)

/-- The cell of the key `item` of a node. -/
def itemCell (node : Node) (item : ℕ) : Res Bytes := do
  let key ← Res.get node.keys item
  let value ← Res.get node.values item
  let cell ← encodePair key value
  if node.leaf then return cell
  else do
    let child ← Res.get node.children (item + 1)
    return cell ++ pageNumber child

/-- The page of a node. -/
def nodePage (node : Node) : Res Page := do
  let page ← startPage node
  let page ← (List.range node.keys.length).foldlM (fun page item => do
    let cell ← itemCell node item
    SlottedPage.insert page cell) page
  SlottedPage.finish page

/-- The metadata cell. -/
def metaCell (t : BTreeIndex) : Bytes := le 8 (t.root + 1) ++ le 8 t.nodes.length ++ le 8 t.len

/-- The metadata page. -/
def metaPage (t : BTreeIndex) : Res Page := do
  let page ← SlottedPage.new .meta
  let page ← SlottedPage.insert page t.metaCell
  SlottedPage.finish page

/-- One page for each node. -/
def allocateNodes : List Node → Act Pager Unit
  | [] => pure ()
  | _ :: nodes => do
    let _ ← Pager.allocate
    allocateNodes nodes

/-- Write the pages of the nodes from index `index` on. -/
def writeNodes (index : ℕ) : List Node → Act Pager Unit
  | [] => pure ()
  | node :: nodes => do
    let page ← Act.lift (nodePage node)
    Pager.write (index + 1) page
    writeNodes (index + 1) nodes

/-- The part of `save` that works on the temporary file. -/
def savePages (t : BTreeIndex) : Act Pager Unit := do
  let _ ← Pager.allocate
  allocateNodes t.nodes
  let page ← Act.lift t.metaPage
  Pager.write 0 page
  writeNodes 0 t.nodes
  Pager.flush

/-- `publish_snapshot`, where `path` exists or not. -/
def publishSnapshot (pathExists : Bool) : List (DiskOp FileName) :=
  [.remove .bak] ++ (if pathExists then [.rename .pages .bak] else []) ++
    [.rename .tmp .pages, .remove .bak]

/-- The pager that `Pager::create(&temp, 64)` returns. -/
def freshPager : Pager := { file := [], capacity := 64, pages := 0 }

/-- The operations of `save` on the temporary file, and whether it went on from there.  The pager
    is flushed once more when it is dropped. -/
def saveTemp (t : BTreeIndex) : List (DiskOp FileName) × Res Unit :=
  let (result, pager) := t.savePages.run freshPager
  let (_, pager) := Pager.flush.run pager
  ([.remove .tmp, .truncate .tmp] ++ pager.issued.map (.file .tmp), result)

/-- `BTreeIndex::save`: the operations it issues, and its result. -/
def save (t : BTreeIndex) (d : Disk FileName) : List (DiskOp FileName) × Res Unit :=
  match t.saveTemp with
  | (ops, .error e) => (ops, .error e)
  | (ops, .ok ()) =>
    (ops ++ publishSnapshot (d.runOps ops .pages).isSome ++ [.syncDir], .ok ())

/-! ## Loading -/

/-- One turn of the loop over the cells of a node page. -/
def decodeItem (internal : Bool) (count : ℕ) (node : Node) (cell : Bytes) : Res Node := do
  let (key, value, used) ← decodePair cell
  if internal then do
    let page ← takeU64 cell used
    let child ← pageToIndex page count
    if used + 8 ≠ cell.length then Res.fail .invalidData "btree: trailing internal cell bytes"
    else return ⟨node.keys ++ [key], node.values ++ [value], node.children ++ [child]⟩
  else if used ≠ cell.length then Res.fail .invalidData "btree: trailing leaf cell bytes"
  else return ⟨node.keys ++ [key], node.values ++ [value], node.children⟩

/-- The node of a page: the cells after the leftmost child of an inner node are its items. -/
def decodeCells (kind : SlottedPage.PageKind) (count : ℕ) (cells : List Bytes) : Res Node :=
  match kind with
  | .internal =>
    match cells with
    | [] => Res.fail .invalidData "btree: internal page has no child"
    | left :: items =>
      if left.length ≠ 8 then Res.fail .invalidData "btree: malformed left child"
      else do
        let page ← takeU64 left 0
        let child ← pageToIndex page count
        items.foldlM (decodeItem true count) { children := [child] }
  | .leaf => cells.foldlM (decodeItem false count) {}
  | .meta => Res.fail .invalidData "btree: unexpected node page kind"

/-- The node of a page, with the final check of the loop. -/
def decodeNode (bytes : Page) (count : ℕ) : Res Node := do
  let page ← SlottedPage.fromBytes bytes
  let cells ← SlottedPage.cells page
  let kind ← SlottedPage.kind page
  let node ← decodeCells kind count cells
  if ¬ node.leaf ∧ node.children.length ≠ node.keys.length + 1 then
    Res.fail .invalidData "btree: child/key count mismatch"
  else return node

/-- The loop over the node pages: the remaining ones start at `pageId`. -/
def readNodes (count : ℕ) : ℕ → ℕ → Act Pager (List Node)
  | 0, _ => pure []
  | remaining + 1, pageId => do
    let bytes ← Pager.read pageId
    let node ← Act.lift (decodeNode bytes count)
    let nodes ← readNodes count remaining (pageId + 1)
    return node :: nodes

/-- The cell of the metadata page. -/
def readMeta (bytes : Page) : Res (ℕ × ℕ × ℕ) := do
  let page ← SlottedPage.fromBytes bytes
  let kind ← SlottedPage.kind page
  if kind ≠ .meta then Res.fail .invalidData "btree: page zero is not metadata"
  else do
    let cells ← SlottedPage.cells page
    match cells with
    | [cell] =>
      if cell.length ≠ 24 then Res.fail .invalidData "btree: malformed metadata"
      else do
        let rootPage ← takeU64 cell 0
        let nodeCount ← takeU64 cell 8
        let len ← takeU64 cell 16
        return (rootPage, nodeCount, len)
    | _ => Res.fail .invalidData "btree: malformed metadata"

/-- `Vec::with_capacity` for pairs of strings, of 48 bytes each: no allocation has more than `isize::MAX`. -/
def reservePairs (len : ℕ) : Res Unit := if len * 48 < 2 ^ 63 then .ok () else .error (.panic .capacity)

/-- The final check of `load_exact`, with memory for all entries.  The walk of `entries` first makes
    room for `len` pairs; elsewhere `len` counts entries that are in memory, but here it is what the
    metadata says. -/
def checkCount (tree : BTreeIndex) : Res BTreeIndex := do
  reservePairs tree.len
  let all ← tree.entries
  if all.length ≠ tree.len then Res.fail .invalidData "btree: entry count mismatch"
  else return tree

/-- `load_exact`, with the pager open, up to its final check. -/
def loadPagesWith (check : BTreeIndex → Res BTreeIndex) : Act Pager BTreeIndex := do
  let pageCount ← Act.gets Pager.pages
  if pageCount = 0 then return new
  else do
    let bytes ← Pager.read 0
    let (rootPage, nodeCount, len) ← Act.lift (readMeta bytes)
    if rootPage = 0 ∨ nodeCount = 0 ∨ pageCount ≠ nodeCount + 1 then
      Act.fail .invalidData "btree: inconsistent metadata"
    else do
      let nodes ← readNodes nodeCount nodeCount 1
      let root ← Act.lift (pageToIndex rootPage nodeCount)
      Act.lift (check ⟨nodes, root, len⟩)

/-- `load_exact` of a file with content `file`: what the pager does to the file (it is flushed when
    it is dropped), and the result. -/
def loadExactWith (check : BTreeIndex → Res BTreeIndex) (file : Bytes) : List FileOp × Res BTreeIndex :=
  match Pager.openInner file 64 with
  | .error e => ([], .error e)
  | .ok pager =>
    let (result, pager) := (loadPagesWith check).run pager
    let (_, pager) := Pager.flush.run pager
    (pager.issued, result)

/-- `load_exact`. -/
def loadExact (file : Bytes) : List FileOp × Res BTreeIndex := loadExactWith checkCount file

/-- `load_exact` of a file that is there. -/
def loadFile (d : Disk FileName) (name : FileName) : List (DiskOp FileName) × Res BTreeIndex :=
  let (ops, result) := loadExact (((d name).map File.bytes).getD [])
  (.create name :: ops.map (.file name), result)

/-- `BTreeIndex::load`. -/
def load (d : Disk FileName) : List (DiskOp FileName) × Res BTreeIndex :=
  if (d .pages).isSome then
    match loadFile d .pages with
    | (ops, .ok tree) => (ops, .ok tree)
    | (ops, .error e) =>
      if (d .bak).isSome then
        let (ops', result) := loadFile d .bak
        (ops ++ ops', result)
      else (ops, .error e)
  else if (d .bak).isSome then loadFile d .bak
  else ([], .ok new)

/-! ## Machines -/

/-- The stack and the memory of the machine that the code runs on: how many nested calls along the nodes
    its stack takes, and which pairs a vector can hold that was made for `len` of them, while the nodes of
    a tree are in memory.  An empty vector needs no memory, a vector needs no more of it than a longer one,
    and none has more than `isize::MAX` bytes. -/
structure Machine where
  frames : ℕ
  room : List Node → ℕ → List (String × String) → Bool
  frames_pos : 0 < frames
  room_nil : ∀ nodes, room nodes 0 [] = true
  room_closed : ∀ nodes len, Closed (room nodes len)
  room_capacity : ∀ nodes len out, room nodes len out = true → max len out.length * 48 < 2 ^ 63

/-- `BTreeIndex::entries` on a machine: the vector is made for `len` pairs, and grows where these are
    not enough. -/
def entriesOn (machine : Machine) (t : BTreeIndex) : Res (List (String × String)) :=
  if machine.room t.nodes t.len [] = true then
    collectIn (machine.room t.nodes t.len) pairAt t.nodes machine.frames t.root []
  else .error (.panic .capacity)

/-- `BTreeIndex::get` on a machine. -/
def getOn (machine : Machine) (t : BTreeIndex) (key : String) : Res (Option String) :=
  getFrom t.nodes machine.frames t.root key

/-- The final check of `load_exact` on a machine. -/
def checkCountOn (machine : Machine) (tree : BTreeIndex) : Res BTreeIndex := do
  let all ← tree.entriesOn machine
  if all.length ≠ tree.len then Res.fail .invalidData "btree: entry count mismatch"
  else return tree

/-- `load_exact` on a machine. -/
def loadExactOn (machine : Machine) (file : Bytes) : List FileOp × Res BTreeIndex :=
  loadExactWith (checkCountOn machine) file

end BTreeIndex

end NutDb
