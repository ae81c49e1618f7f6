/-
  What loading a snapshot relies on (`BTreeIndex::load_exact`).

  A file describes a tree (`Describes`) if its pages can be read and hold the
  metadata and the nodes of the tree.  On any other file a load fails with an
  error (`loadExact_cases`).  On a file that describes a tree it only checks the
  number of entries (`loadExact_of_describes`): that the stack is deep enough for
  the walk to count them, that there is room for the entries that it meets and for
  as many as the metadata says, and that the keys are in order is taken for
  granted.  `load_safe_iff` says which files a load is safe for on a machine.
-/
import NutDb.BTreeShape
import NutDb.PageRuns
import NutDb.SnapshotSpec

namespace NutDb

open Lib BTree

namespace BTreeIndex

/-- The pages of the file can be read, and hold the metadata and the nodes of the tree. -/
structure Describes (file : Bytes) (t : BTreeIndex) : Prop where
  size : file.length = (t.nodes.length + 1) * PAGE_SIZE
  metadata : ∃ page, Pager.readPage file 0 = .ok page ∧ readMeta page = .ok (t.root + 1, t.nodes.length, t.len)
  root : t.root < t.nodes.length
  node : ∀ (i : ℕ) n, t.nodes[i]? = some n → ∃ page, Pager.readPage file (i + 1) = .ok page ∧
    decodeNode page t.nodes.length = .ok n

/-- The walk from the root is possible on the machine: there is room for as many pairs as the metadata
    says; no path along the children is longer than the stack; and there is room for all entries. -/
structure Fits (machine : Machine) (t : BTreeIndex) : Prop where
  reserve : machine.room t.nodes t.len [] = true
  stack : ¬ Deep (Child t.nodes) machine.frames t.root
  room : machine.room t.nodes t.len (contentTo t.nodes machine.frames t.root) = true

/-- The walk is possible, and if it meets as many keys as the metadata says, these are in search order. -/
structure WellShaped (machine : Machine) (t : BTreeIndex) : Prop extends Fits machine t where
  ordered : keyTotal t.nodes machine.frames t.root = t.len → Ordered t.nodes t.root

/-- A load that returns, with an error or with a tree whose entries ascend and are found. -/
def Safe (machine : Machine) : Res BTreeIndex → Prop
  | .ok t => ∃ es, t.entriesOn machine = .ok es ∧ SortedKeys es ∧
    ∀ e ∈ es, t.getOn machine e.1 = .ok (some e.2)
  | .error (.io _) => True
  | .error (.panic _) => False

/-! ## Nodes of any page -/

section Decode
variable {count : ℕ} {internal : Bool} {node node' : Node} {cell : Bytes} {bytes : Page}

theorem decodePair_returns (cell : Bytes) : Res.Returns (decodePair cell) := by
  unfold decodePair
  split_ifs with hshort
  · exact Res.returns_fail _ _
  · dsimp only
    split_ifs with hend
    · refine (Res.returns_ofOption _ _ _).bind fun key => (Res.returns_ofOption _ _ _).bind fun value => ?_
      exact Res.returns_ok _
    · exact Res.returns_fail _ _

theorem takeU64_returns (bytes : Bytes) (offset : ℕ) : Res.Returns (takeU64 bytes offset) := by
  unfold takeU64
  split_ifs
  · exact Res.returns_ok _
  · exact Res.returns_fail _ _

theorem pageToIndex_returns (page count : ℕ) : Res.Returns (pageToIndex page count) := by
  unfold pageToIndex
  split_ifs
  · exact Res.returns_ok _
  · exact Res.returns_fail _ _

theorem pageToIndex_eq_ok {page id : ℕ} : pageToIndex page count = .ok id ↔ page = id + 1 ∧ id < count := by
  unfold pageToIndex
  split_ifs with h
  · constructor
    · intro heq
      cases heq
      omega
    · rintro ⟨rfl, -⟩
      rfl
  · constructor
    · intro heq
      cases heq
    · rintro ⟨rfl, hlt⟩
      exact absurd ⟨Nat.succ_ne_zero id, hlt⟩ h

theorem decodeItem_returns (internal : Bool) (count : ℕ) (node : Node) (cell : Bytes) :
    Res.Returns (decodeItem internal count node cell) := by
  unfold decodeItem
  refine (decodePair_returns cell).bind fun ⟨key, value, used⟩ => ?_
  cases internal with
  | true =>
    simp only [if_true]
    refine (takeU64_returns cell used).bind fun page => (pageToIndex_returns page count).bind fun child => ?_
    split_ifs
    · exact Res.returns_fail _ _
    · exact Res.returns_ok _
  | false =>
    simp only [Bool.false_eq_true, if_false]
    split_ifs
    · exact Res.returns_fail _ _
    · exact Res.returns_ok _

theorem decodeCells_returns (kind : SlottedPage.PageKind) (count : ℕ) (cells : List Bytes) :
    Res.Returns (decodeCells kind count cells) := by
  cases kind with
  | «meta» => exact Res.returns_fail _ _
  | leaf => exact Res.Returns.foldlM (fun node cell _ => decodeItem_returns false count node cell) _
  | internal =>
    cases cells with
    | nil => exact Res.returns_fail _ _
    | cons left items =>
      unfold decodeCells
      dsimp only
      split_ifs
      · exact Res.returns_fail _ _
      · refine (takeU64_returns left 0).bind fun page => (pageToIndex_returns page count).bind fun child => ?_
        exact Res.Returns.foldlM (fun node cell _ => decodeItem_returns true count node cell) _

/-- A page that is read has a kind and cells. -/
theorem fromBytes_cases (bytes : Page) : (∃ e, SlottedPage.fromBytes bytes = .error (.io e)) ∨
    ∃ kind cells, SlottedPage.fromBytes bytes = .ok bytes ∧ SlottedPage.kind bytes = .ok kind ∧
      SlottedPage.cells bytes = .ok cells := by
  rcases SlottedPage.fromBytes_checked bytes with hfail | ⟨hok, hchecked⟩
  · exact Or.inl hfail
  · obtain ⟨kind, hkind⟩ := hchecked.kind_eq
    obtain ⟨cells, hcells⟩ := hchecked.cells
    exact Or.inr ⟨kind, cells, hok, hkind, hcells⟩

theorem decodeNode_returns (bytes : Page) (count : ℕ) : Res.Returns (decodeNode bytes count) := by
  unfold decodeNode
  rcases fromBytes_cases bytes with ⟨e, he⟩ | ⟨kind, cells, hpage, hkind, hcells⟩
  · rw [he]
    exact Res.returns_fail e.kind e.message
  · rw [hpage, Res.ok_bind, hcells, Res.ok_bind, hkind, Res.ok_bind]
    refine (decodeCells_returns kind count cells).bind fun node => ?_
    split_ifs
    · exact Res.returns_fail _ _
    · exact Res.returns_ok _

theorem readMeta_returns (bytes : Page) : Res.Returns (readMeta bytes) := by
  unfold readMeta
  rcases fromBytes_cases bytes with ⟨e, he⟩ | ⟨kind, cells, hpage, hkind, hcells⟩
  · rw [he]
    exact Res.returns_fail e.kind e.message
  · rw [hpage, Res.ok_bind, hkind, Res.ok_bind]
    split_ifs
    · exact Res.returns_fail _ _
    · rw [hcells, Res.ok_bind]
      split
      · split_ifs
        · exact Res.returns_fail _ _
        · refine (takeU64_returns _ 0).bind fun rootPage => (takeU64_returns _ 8).bind fun nodeCount => ?_
          exact (takeU64_returns _ 16).bind fun len => Res.returns_ok _
      · exact Res.returns_fail _ _

/-- What a turn of the loop over the cells keeps. -/
structure Item (count : ℕ) (node : Node) : Prop where
  values : node.values.length = node.keys.length
  inRange : ∀ c ∈ node.children, c < count

theorem Item.decode (h : Item count node) (hrun : decodeItem internal count node cell = .ok node') :
    Item count node' := by
  obtain ⟨⟨key, value, used⟩, -, hrun⟩ := Res.bind_eq_ok.1 hrun
  cases internal with
  | true =>
    obtain ⟨page, -, hrun⟩ := Res.bind_eq_ok.1 hrun
    obtain ⟨child, hchild, hrun⟩ := Res.bind_eq_ok.1 hrun
    split_ifs at hrun
    · cases hrun
    · cases hrun
      refine ⟨by simp [h.values], fun c hc => ?_⟩
      rcases List.mem_append.1 hc with hc | hc
      · exact h.inRange c hc
      · rw [List.mem_singleton.1 hc]
        exact (pageToIndex_eq_ok.1 hchild).2
  | false =>
    simp only [Bool.false_eq_true, if_false] at hrun
    split_ifs at hrun
    · cases hrun
    · cases hrun
      exact ⟨by simp [h.values], h.inRange⟩

theorem Item.foldlM {cells : List Bytes} (h : Item count node)
    (hrun : cells.foldlM (decodeItem internal count) node = .ok node') : Item count node' := by
  induction cells generalizing node with
  | nil =>
    cases hrun
    exact h
  | cons cell cells ih =>
    rw [List.foldlM_cons] at hrun
    obtain ⟨node₁, hone, hrun⟩ := Res.bind_eq_ok.1 hrun
    exact ih (h.decode hone) hrun

/-- **A node that was read** is formed. -/
theorem formed_of_decodeNode (h : decodeNode bytes count = .ok node) : Formed count node := by
  obtain ⟨page, -, h⟩ := Res.bind_eq_ok.1 h
  obtain ⟨cells, -, h⟩ := Res.bind_eq_ok.1 h
  obtain ⟨kind, -, h⟩ := Res.bind_eq_ok.1 h
  obtain ⟨node₁, hcells, h⟩ := Res.bind_eq_ok.1 h
  split_ifs at h with hcount
  · cases h
  cases h
  have hitem : Item count node := by
    cases kind with
    | «meta» => cases hcells
    | leaf => exact Item.foldlM ⟨rfl, by simp⟩ hcells
    | internal =>
      cases cells with
      | nil => cases hcells
      | cons left items =>
        rw [decodeCells] at hcells
        split_ifs at hcells
        · cases hcells
        · obtain ⟨page, -, hcells⟩ := Res.bind_eq_ok.1 hcells
          obtain ⟨child, hchild, hcells⟩ := Res.bind_eq_ok.1 hcells
          refine Item.foldlM ⟨rfl, fun c hc => ?_⟩ hcells
          rw [List.mem_singleton.1 hc]
          exact (pageToIndex_eq_ok.1 hchild).2
  refine ⟨hitem.values, fun hleaf => ?_, hitem.inRange⟩
  by_contra hne
  exact hcount ⟨by rw [hleaf]; simp, hne⟩

end Decode

/-! ## Files -/

section Files
variable {file : Bytes} {t : BTreeIndex} {check : BTreeIndex → Res BTreeIndex}

theorem readPage_of_slice {id : ℕ} (h : (id + 1) * PAGE_SIZE ≤ file.length) :
    ∃ page, Pager.readPage file id = .ok page ∧ At file (id * PAGE_SIZE) page.1 := by
  have hlen : (slice file (id * PAGE_SIZE) PAGE_SIZE).length = PAGE_SIZE := by
    refine length_slice ?_
    rw [Nat.succ_mul] at h
    exact h
  refine ⟨⟨_, hlen⟩, dif_pos hlen, ?_⟩
  rw [At, hlen]

/-- The pages of a file, and the pager that it is opened with. -/
theorem exists_pages (h : file.length % PAGE_SIZE = 0) : ∃ (arr : List Page) (p : Pager),
    arr.length = file.length / PAGE_SIZE ∧ (∀ (i : ℕ) page, arr[i]? = some page → Pager.readPage file i = .ok page) ∧
    Pager.openInner file 64 = .ok p ∧ Pager.Rep file p arr ∧ p.pages = arr.length := by
  have hpage : ∀ i ∈ List.range (file.length / PAGE_SIZE), ∃ page, Pager.readPage file i = .ok page := by
    intro i hi
    have hle : (i + 1) * PAGE_SIZE ≤ file.length :=
      (Nat.mul_le_mul_right _ (List.mem_range.1 hi)).trans (Nat.div_mul_le_self _ _)
    obtain ⟨page, hread, -⟩ := readPage_of_slice hle
    exact ⟨page, hread⟩
  obtain ⟨arr, harr⟩ := Res.mapM_of_ok hpage
  have hlen := Res.length_of_mapM harr
  rw [List.length_range] at hlen
  have hread : ∀ (i : ℕ) page, arr[i]? = some page → Pager.readPage file i = .ok page := by
    intro i page hi
    refine Res.getElem?_of_mapM harr (List.getElem?_range ?_) hi
    rw [← hlen]
    exact (List.getElem?_eq_some_iff.1 hi).1
  refine ⟨arr, { file := file, capacity := 64, pages := file.length / PAGE_SIZE }, hlen, hread, ?_, ?_, hlen.symm⟩
  · rw [Pager.openInner, if_neg (by decide), if_neg (not_not.2 h)]
  · refine ⟨by norm_num, by simp, fun _ _ h => by simp at h, fun i page hi => Or.inr ?_, rfl⟩
    have hle : (i + 1) * PAGE_SIZE ≤ file.length := by
      have hlt := (List.getElem?_eq_some_iff.1 hi).1
      rw [hlen] at hlt
      exact (Nat.mul_le_mul_right _ hlt).trans (Nat.div_mul_le_self _ _)
    obtain ⟨page', hread', hat⟩ := readPage_of_slice hle
    rw [hread i page hi] at hread'
    cases hread'
    exact hat

theorem loadExact_array {mp : Page} {pgs : List Page} {p : Pager} (hopen : Pager.openInner file 64 = .ok p)
    (hr : Pager.Rep file p (mp :: pgs)) (hp : p.pages = (mp :: pgs).length) :
    (loadExactWith check file).2 = loadArray check mp pgs := by
  obtain ⟨p', hrun⟩ := loadPages_rep check hr hp
  simp only [loadExactWith, hopen, hrun]

theorem mapM_eq_ok {α β : Type} {f : α → Res β} {l : List α} {bs : List β} (hlen : bs.length = l.length)
    (h : ∀ (i : ℕ) a b, l[i]? = some a → bs[i]? = some b → f a = .ok b) : l.mapM f = .ok bs := by
  induction l generalizing bs with
  | nil =>
    obtain rfl := List.length_eq_zero_iff.1 hlen
    rfl
  | cons a l ih =>
    obtain ⟨b, bs, rfl⟩ := List.exists_cons_of_length_eq_add_one hlen
    rw [List.mapM_cons, h 0 a b rfl rfl, Res.ok_bind, ih (by simpa using hlen) fun i => h (i + 1)]
    rfl

/-- **A file that describes a tree**: what a load returns is decided by the final check. -/
theorem loadExact_of_describes (h : Describes file t) : (loadExactWith check file).2 = check t := by
  have hP : 0 < PAGE_SIZE := by decide
  have hmod : file.length % PAGE_SIZE = 0 := by rw [h.size, Nat.mul_mod_left]
  obtain ⟨arr, p, hlen, hread, hopen, hr, hp⟩ := exists_pages hmod
  rw [h.size, Nat.mul_div_cancel _ hP] at hlen
  obtain ⟨mp, pgs, rfl⟩ := List.exists_cons_of_length_eq_add_one hlen
  have hpgs : pgs.length = t.nodes.length := by simpa using hlen
  obtain ⟨page, hpage, hmeta⟩ := h.metadata
  rw [hread 0 mp rfl] at hpage
  cases hpage
  have hnodes : (pgs.mapM fun page => decodeNode page t.nodes.length) = .ok t.nodes := by
    refine mapM_eq_ok hpgs.symm fun i page n hpage hn => ?_
    obtain ⟨page', hpage', hdecode⟩ := h.node i n hn
    rw [hread (i + 1) page hpage] at hpage'
    cases hpage'
    exact hdecode
  have hroot := h.root
  rw [loadExact_array hopen hr hp, loadArray, hmeta, Res.ok_bind]
  dsimp only
  rw [if_neg (by omega), hnodes, Res.ok_bind, pageToIndex_of_lt hroot, Res.ok_bind]

/-- **Any file**: a load fails before the final check, or the file is empty, or it describes a tree. -/
theorem loadExact_cases (file : Bytes) : (∃ e, ∀ check, (loadExactWith check file).2 = .error (.io e)) ∨
    (∀ check, (loadExactWith check file).2 = .ok new) ∨ ∃ t, Describes file t := by
  by_cases hmod : file.length % PAGE_SIZE = 0
  swap
  · have hopen : Pager.openInner file 64 = Res.fail .invalidData "pager: file ends in a partial page" := by
      rw [Pager.openInner, if_neg (by decide), if_pos hmod]
    exact Or.inl ⟨⟨.invalidData, "pager: file ends in a partial page"⟩,
      fun check => by rw [loadExactWith, hopen]; rfl⟩
  obtain ⟨arr, p, hlen, hread, hopen, hr, hp⟩ := exists_pages hmod
  cases arr with
  | nil =>
    refine Or.inr (Or.inl fun check => ?_)
    simp only [loadExactWith, hopen, loadPagesWith, Act.run_bind, Act.run_gets, hp, List.length_nil, if_true, Act.run_pure]
  | cons mp pgs =>
    have hload : ∀ check, (loadExactWith check file).2 = loadArray check mp pgs := fun check =>
      loadExact_array hopen hr hp
    rcases (readMeta_returns mp).cases with ⟨⟨rootPage, nodeCount, len⟩, hmeta⟩ | ⟨e, he⟩
    swap
    · exact Or.inl ⟨e, fun check => by rw [hload, loadArray, he]; rfl⟩
    by_cases hcond : rootPage = 0 ∨ nodeCount = 0 ∨ pgs.length + 1 ≠ nodeCount + 1
    · refine Or.inl ⟨⟨.invalidData, "btree: inconsistent metadata"⟩, fun check => ?_⟩
      rw [hload, loadArray, hmeta, Res.ok_bind]
      exact if_pos hcond
    obtain rfl : nodeCount = pgs.length := by omega
    have hrest : ∀ check, (loadExactWith check file).2 = (do
        let nodes ← pgs.mapM fun page => decodeNode page pgs.length
        let root ← pageToIndex rootPage pgs.length
        check ⟨nodes, root, len⟩) := by
      intro check
      rw [hload, loadArray, hmeta, Res.ok_bind]
      exact if_neg hcond
    rcases (Res.Returns.mapM fun page _ => decodeNode_returns page pgs.length).cases with ⟨nodes, hnodes⟩ | ⟨e, he⟩
    swap
    · exact Or.inl ⟨e, fun check => by rw [hrest, he]; rfl⟩
    have hcount := Res.length_of_mapM hnodes
    rcases (pageToIndex_returns rootPage pgs.length).cases with ⟨root, hroot⟩ | ⟨e, he⟩
    swap
    · exact Or.inl ⟨e, fun check => by rw [hrest, hnodes, Res.ok_bind, he]; rfl⟩
    obtain ⟨rfl, hlt⟩ := pageToIndex_eq_ok.1 hroot
    refine Or.inr (Or.inr ⟨⟨nodes, root, len⟩, ?_, ⟨mp, hread 0 mp rfl, ?_⟩, ?_, fun i n hn => ?_⟩)
    · have hlen' : pgs.length + 1 = file.length / PAGE_SIZE := hlen
      rw [hcount, hlen', Nat.div_mul_cancel (Nat.dvd_of_mod_eq_zero hmod)]
    · rw [hmeta, hcount]
    · rw [hcount]
      exact hlt
    · have hi : i < pgs.length := by
        rw [← hcount]
        exact (List.getElem?_eq_some_iff.1 hn).1
      have hpage : pgs[i]? = some pgs[i] := List.getElem?_eq_getElem hi
      refine ⟨pgs[i], hread (i + 1) _ hpage, ?_⟩
      rw [hcount]
      exact Res.getElem?_of_mapM hnodes hpage hn

theorem Describes.arena (h : Describes file t) : ∀ n ∈ t.nodes, Formed t.nodes.length n := by
  intro n hn
  obtain ⟨i, hi⟩ := List.getElem?_of_mem hn
  obtain ⟨page, -, hdecode⟩ := h.node i n hi
  exact formed_of_decodeNode hdecode

end Files

/-! ## The final check -/

section Check
variable {machine : Machine} {t : BTreeIndex}

/-- With a stack for all nodes, a path is too long only if it meets a cycle. -/
theorem deep_iff {frames : ℕ} (harena : ∀ n ∈ t.nodes, Formed t.nodes.length n)
    (hroot : t.root < t.nodes.length) (hframes : t.nodes.length ≤ frames) :
    Deep (Child t.nodes) frames t.root ↔ Cyclic (Child t.nodes) t.root := by
  refine deep_iff_cyclic (List.mem_range.2 hroot) (fun b _ c hc => ?_) ?_
  · obtain ⟨n, hn, hc⟩ := hc
    exact List.mem_range.2 ((harena n (List.mem_of_getElem? hn)).inRange c hc)
  · rwa [List.length_range]

/-- A walk that is possible yields the entries. -/
theorem entriesOn_eq (harena : ∀ n ∈ t.nodes, Formed t.nodes.length n) (hroot : t.root < t.nodes.length)
    (h : t.Fits machine) : t.entriesOn machine = .ok (contentTo t.nodes machine.frames t.root) := by
  have hclosed := machine.room_closed t.nodes t.len
  have hwalk := collectIn_of_not_deep hclosed harena hroot h.stack
  rw [entriesOn, if_pos h.reserve]
  exact hwalk.eq_ok hclosed h.room

/-- A walk that returns was possible. -/
theorem fits_of_entriesOn {es : List (String × String)} (harena : ∀ n ∈ t.nodes, Formed t.nodes.length n)
    (hroot : t.root < t.nodes.length) (h : t.entriesOn machine = .ok es) : t.Fits machine := by
  unfold entriesOn at h
  split_ifs at h with hreserve
  have hstack := not_deep_of_collectIn harena hroot h
  refine ⟨hreserve, hstack, ?_⟩
  by_contra hfull
  have hwalk := collectIn_of_not_deep (machine.room_closed t.nodes t.len) harena hroot hstack
  rw [hwalk.eq_capacity hreserve hfull] at h
  cases h

theorem entriesOn_faults (machine : Machine) (t : BTreeIndex) :
    Res.Faults (fun fault => ∃ p, fault = .panic p) (t.entriesOn machine) := by
  unfold entriesOn
  split_ifs
  · exact collectIn_faults _ _ _ _ _
  · exact .error ⟨_, rfl⟩

/-- **The final check** is safe for the trees of the right shape, and only for these. -/
theorem checkCount_safe (harena : ∀ n ∈ t.nodes, Formed t.nodes.length n) (hroot : t.root < t.nodes.length) :
    Safe machine (checkCountOn machine t) ↔ t.WellShaped machine := by
  by_cases hfits : t.Fits machine
  swap
  · rcases hentries : t.entriesOn machine with fault | es
    · obtain ⟨p, rfl⟩ := entriesOn_faults machine t fault hentries
      rw [checkCountOn, hentries]
      exact iff_of_false id fun h => hfits h.toFits
    · exact absurd (fits_of_entriesOn harena hroot hentries) hfits
  have hentries := entriesOn_eq harena hroot hfits
  rw [checkCountOn, hentries, Res.ok_bind, length_contentTo harena hroot]
  by_cases hcount : keyTotal t.nodes machine.frames t.root = t.len
  swap
  · rw [if_pos hcount]
    exact iff_of_true trivial ⟨hfits, fun h => absurd h hcount⟩
  rw [if_neg (not_not.2 hcount), Res.pure_eq]
  have hsorted := sorted_iff harena hroot hfits.stack
  constructor
  · rintro ⟨es, hes, hs, -⟩
    rw [hentries] at hes
    cases hes
    exact ⟨hfits, fun _ => hsorted.1 hs⟩
  · intro h
    have hs := hsorted.2 (h.ordered hcount)
    refine ⟨_, hentries, hs, fun e he => ?_⟩
    rw [getOn, getFrom_eq harena hroot hfits.stack hs, lookup_of_mem hs he]

/-- Where the walk is possible, the machine makes no difference. -/
theorem checkCountOn_eq (harena : ∀ n ∈ t.nodes, Formed t.nodes.length n) (hroot : t.root < t.nodes.length)
    (h : t.Fits machine) : checkCountOn machine t = checkCount t := by
  have hdeep : ¬ Deep (Child t.nodes) t.depth t.root := fun hdeep =>
    h.stack (((deep_iff harena hroot (Nat.le_succ _)).1 hdeep).deep _)
  have hentries : t.entries = .ok (contentTo t.nodes t.depth t.root) :=
    (collectIn_of_not_deep closed_true harena hroot hdeep).eq_ok closed_true rfl
  have hcontent : contentTo t.nodes machine.frames t.root = contentTo t.nodes t.depth t.root :=
    (contentTo_of_not_deep h.stack (le_max_left _ t.depth)).symm.trans
      (contentTo_of_not_deep hdeep (le_max_right _ _))
  have hlen : t.len * 48 < 2 ^ 63 := by
    have hcapacity := machine.room_capacity _ _ _ h.reserve
    rwa [List.length_nil, Nat.max_zero] at hcapacity
  rw [checkCountOn, checkCount, reservePairs, if_pos hlen, Res.ok_bind, entriesOn_eq harena hroot h, hentries,
    hcontent]

theorem new_safe (machine : Machine) : Safe machine (.ok new) := by
  obtain ⟨frames, hframes⟩ : ∃ n, machine.frames = n + 1 := ⟨machine.frames - 1, by have := machine.frames_pos; omega⟩
  refine ⟨[], ?_, List.Pairwise.nil, fun _ h => nomatch h⟩
  rw [entriesOn, new, if_pos (machine.room_nil _), hframes]
  rfl

end Check

/-! ## Files of other shapes -/

/-- Every page of the file passes its checks. -/
def PagesChecked (file : Bytes) : Prop :=
  file.length % PAGE_SIZE = 0 ∧ ∀ i < file.length / PAGE_SIZE, ∃ page cells,
    Pager.readPage file i = .ok page ∧ SlottedPage.fromBytes page = .ok page ∧ SlottedPage.cells page = .ok cells

/-- The pages of a tree. -/
def pagesOf (t : BTreeIndex) : Res (List Page) := do
  let mp ← t.metaPage
  let pgs ← t.nodes.mapM nodePage
  return mp :: pgs

/-- The file with these pages. -/
def fileOf (t : BTreeIndex) : Bytes := (t.pagesOf.toOption.getD []).flatMap Subtype.val

section Other
variable {t : BTreeIndex} {file : Bytes} {node : Node}

theorem Describes.checked (h : Describes file t) : PagesChecked file := by
  have hP : 0 < PAGE_SIZE := by decide
  have hpages : file.length / PAGE_SIZE = t.nodes.length + 1 := by rw [h.size, Nat.mul_div_cancel _ hP]
  refine ⟨by rw [h.size, Nat.mul_mod_left], fun i hi => ?_⟩
  obtain ⟨page, hread, hok⟩ : ∃ page, Pager.readPage file i = .ok page ∧
      ∃ page', SlottedPage.fromBytes page = .ok page' := by
    cases i with
    | zero =>
      obtain ⟨page, hread, hmeta⟩ := h.metadata
      obtain ⟨page', hok, -⟩ := Res.bind_eq_ok.1 hmeta
      exact ⟨page, hread, page', hok⟩
    | succ i =>
      obtain ⟨page, hread, hdecode⟩ := h.node i _ (List.getElem?_eq_getElem (by omega))
      obtain ⟨page', hok, -⟩ := Res.bind_eq_ok.1 hdecode
      exact ⟨page, hread, page', hok⟩
  rcases fromBytes_cases page with ⟨e, he⟩ | ⟨kind, cells, hpage, -, hcells⟩
  · obtain ⟨page', hok⟩ := hok
    rw [he] at hok
    cases hok
  · exact ⟨page, cells, hread, hpage, hcells⟩

/-- Cells are inserted as long as there is room. -/
theorem foldlM_insert_ok {α : Type} {f : α → Res Bytes} {l : List α} {b : Page} {k : SlottedPage.PageKind}
    {cs cells : List Bytes} (hb : SlottedPage.Holds b k cs) (hm : l.mapM f = .ok cells)
    (hroom : SlottedPage.HEADER_SIZE + (cs ++ cells).length * 2 + SlottedPage.used (cs ++ cells) ≤ PAGE_SIZE) :
    ∃ b', l.foldlM (fun page item => do
      let cell ← f item
      SlottedPage.insert page cell) b = .ok b' ∧ SlottedPage.Holds b' k (cs ++ cells) := by
  induction l generalizing b cs cells with
  | nil =>
    cases hm
    exact ⟨b, rfl, by simpa using hb⟩
  | cons a l ih =>
    rw [List.mapM_cons] at hm
    obtain ⟨cell, hcell, hm⟩ := Res.bind_eq_ok.1 hm
    obtain ⟨rest, hrest, hm⟩ := Res.bind_eq_ok.1 hm
    cases hm
    obtain ⟨-, b₁, hinsert, hb₁⟩ | ⟨hfull, -⟩ := SlottedPage.insert_holds (c := cell) hb
    · obtain ⟨b', hfold, hb'⟩ := ih hb₁ hrest (by simpa using hroom)
      refine ⟨b', ?_, by simpa using hb'⟩
      rw [List.foldlM_cons, hcell, Res.ok_bind, hinsert, Res.ok_bind, hfold]
    · rw [show cs ++ cell :: rest = cs ++ [cell] ++ rest by simp, SlottedPage.used_append (cs ++ [cell])] at hroom
      simp only [List.length_append, List.length_singleton] at hroom
      omega

theorem nodePage_leaf {cells : List Bytes} (hleaf : node.leaf = true)
    (hm : (List.range node.keys.length).mapM (itemCell node) = .ok cells)
    (hroom : SlottedPage.HEADER_SIZE + cells.length * 2 + SlottedPage.used cells ≤ PAGE_SIZE) :
    ∃ pg, nodePage node = .ok pg := by
  obtain ⟨b, hnew, hb⟩ := SlottedPage.new_holds .leaf
  obtain ⟨b', hfold, hb'⟩ := foldlM_insert_ok hb hm hroom
  obtain ⟨pg, hfinish, -⟩ := SlottedPage.fromBytes_finish hb'
  refine ⟨pg, ?_⟩
  rw [nodePage, startPage, if_pos hleaf, hnew, Res.ok_bind, hfold, Res.ok_bind, hfinish]

/-- An inner node without keys. -/
theorem nodePage_link (child : ℕ) : ∃ pg, nodePage { children := [child] } = .ok pg := by
  obtain ⟨b, hnew, hb⟩ := SlottedPage.new_holds .internal
  obtain ⟨-, b', hinsert, hb'⟩ | ⟨hfull, -⟩ := SlottedPage.insert_holds (c := pageNumber child) hb
  · obtain ⟨pg, hfinish, -⟩ := SlottedPage.fromBytes_finish hb'
    refine ⟨pg, ?_⟩
    rw [nodePage, startPage, if_neg (by simp [Node.leaf]), hnew]
    simp [Res.get, hinsert, hfinish]
  · have hused : SlottedPage.used ([] ++ [pageNumber child]) = 10 := by
      rw [SlottedPage.used_concat, SlottedPage.used_nil, pageNumber, length_le]
    rw [hused] at hfull
    exact absurd hfull (by decide)

theorem describes_fileOf {pgs : List Page} (hm : t.nodes.mapM nodePage = .ok pgs)
    (hw : ∀ n ∈ t.nodes, Writable t.nodes.length n) (hroot : t.root < t.nodes.length)
    (hnodes : t.nodes.length < 2 ^ 63) (hlen : t.len < 2 ^ 64) : Describes (fileOf t) t := by
  obtain ⟨mp, hmp⟩ := metaPage_ok t
  have hcount : pgs.length = t.nodes.length := Res.length_of_mapM hm
  have hfile : fileOf t = (mp :: pgs).flatMap Subtype.val := by
    rw [fileOf, pagesOf, hmp, hm]
    rfl
  have hread : ∀ (i : ℕ) page, (mp :: pgs)[i]? = some page → Pager.readPage (fileOf t) i = .ok page := by
    intro i page hi
    rw [hfile]
    exact Pager.readPage_of_at (at_pages hi)
  refine ⟨?_, ⟨mp, hread 0 mp rfl, readMeta_metaPage hmp (by omega) (by omega) hlen⟩, hroot, fun i n hn => ?_⟩
  · rw [hfile, length_pages, List.length_cons, hcount]
  · have hi : i < pgs.length := by
      rw [hcount]
      exact (List.getElem?_eq_some_iff.1 hn).1
    have hpage : pgs[i]? = some pgs[i] := List.getElem?_eq_getElem hi
    refine ⟨pgs[i], hread (i + 1) _ hpage, decodeNode_nodePage (hw n (List.mem_of_getElem? hn)) ?_⟩
    exact Res.getElem?_of_mapM hm hn hpage

theorem mapM_single {pg : Page} (h : nodePage node = .ok pg) : [node].mapM nodePage = .ok [pg] := by
  rw [List.mapM_cons, h]
  rfl

end Other

/-- A root that is its own child. -/
def cyclicTree : BTreeIndex := ⟨[{ children := [0] }], 0, 0⟩

/-- A leaf whose keys are not in order. -/
def unorderedTree : BTreeIndex := ⟨[⟨["b", "a"], ["1", "2"], []⟩], 0, 2⟩

/-- An empty leaf, with a number of entries for which there is no room. -/
def hugeTree : BTreeIndex := ⟨[{}], 0, 2 ^ 40⟩

/-- A stack for about a million calls, and 64 GiB of memory. -/
def smallMachine : Machine where
  frames := 2 ^ 20
  room _ len out := decide (max len out.length * 48 < 2 ^ 36)
  frames_pos := by norm_num
  room_nil _ := by norm_num
  room_closed _ len out e h := by
    rw [decide_eq_true_eq] at h ⊢
    rw [List.length_append] at h
    exact (Nat.mul_le_mul_right 48 (max_le_max_left len (Nat.le_add_right _ _))).trans_lt h
  room_capacity _ _ _ h := (of_decide_eq_true h).trans (by norm_num)

/-- The walk of a cycle is as deep as the stack. -/
theorem collectIn_cyclic (room : List (String × String) → Bool) (depth : ℕ) (out : List (String × String)) :
    collectIn room pairAt cyclicTree.nodes depth 0 out = overflow := by
  induction depth generalizing out with
  | zero => rfl
  | succ depth ih => exact ih out

theorem describes_cyclic : Describes (fileOf cyclicTree) cyclicTree := by
  obtain ⟨pg, hpg⟩ := nodePage_link 0
  refine describes_fileOf (mapM_single hpg) (List.forall_mem_singleton.2 ⟨rfl, fun _ => rfl, ?_, by decide⟩)
    (by decide) (by decide) (by decide)
  simp [cyclicTree]

theorem describes_unordered : Describes (fileOf unorderedTree) unorderedTree := by
  have hcells : (List.range 2).mapM (itemCell ⟨["b", "a"], ["1", "2"], []⟩) =
      .ok [[1, 0, 0, 0, 1, 0, 0, 0, 98, 49], [1, 0, 0, 0, 1, 0, 0, 0, 97, 50]] := rfl
  obtain ⟨pg, hpg⟩ := nodePage_leaf rfl hcells (by decide)
  refine describes_fileOf (mapM_single hpg) (List.forall_mem_singleton.2 ⟨rfl, fun h => ?_, ?_, by decide⟩)
    (by decide) (by decide) (by decide)
  · cases h
  · simp

theorem describes_huge : Describes (fileOf hugeTree) hugeTree := by
  have hcells : (List.range 0).mapM (itemCell {}) = .ok [] := rfl
  obtain ⟨pg, hpg⟩ := nodePage_leaf rfl hcells (by decide)
  refine describes_fileOf (mapM_single hpg) (List.forall_mem_singleton.2 ⟨rfl, fun h => ?_, ?_, by decide⟩)
    (by decide) (by decide) (by decide)
  · cases h
  · simp

/-- **Not every file is loaded safely**, though all of its pages pass their checks: the walk of the first
    does not end, the second is loaded with its entries out of order, and there is no room for the third. -/
theorem not_load_safe :
    (PagesChecked (fileOf cyclicTree) ∧ (loadExactOn smallMachine (fileOf cyclicTree)).2 = overflow ∧
      ¬ Safe smallMachine (loadExactOn smallMachine (fileOf cyclicTree)).2) ∧
    (PagesChecked (fileOf unorderedTree) ∧
      (loadExactOn smallMachine (fileOf unorderedTree)).2 = .ok unorderedTree ∧
      unorderedTree.entriesOn smallMachine = .ok [("b", "1"), ("a", "2")] ∧
      ¬ Safe smallMachine (loadExactOn smallMachine (fileOf unorderedTree)).2) ∧
    PagesChecked (fileOf hugeTree) ∧
      (loadExactOn smallMachine (fileOf hugeTree)).2 = .error (.panic .capacity) ∧
      ¬ Safe smallMachine (loadExactOn smallMachine (fileOf hugeTree)).2 := by
  have hcyclic : (loadExactOn smallMachine (fileOf cyclicTree)).2 = overflow := by
    rw [loadExactOn, loadExact_of_describes describes_cyclic, checkCountOn, entriesOn, if_pos (by decide)]
    exact congrArg (· >>= _) (collectIn_cyclic _ _ _)
  have hlist : unorderedTree.entriesOn smallMachine = .ok [("b", "1"), ("a", "2")] := by
    rw [entriesOn, if_pos (by decide)]
    rfl
  have hunordered : (loadExactOn smallMachine (fileOf unorderedTree)).2 = .ok unorderedTree := by
    rw [loadExactOn, loadExact_of_describes describes_unordered, checkCountOn, hlist]
    rfl
  have hhuge : (loadExactOn smallMachine (fileOf hugeTree)).2 = .error (.panic .capacity) := by
    rw [loadExactOn, loadExact_of_describes describes_huge, checkCountOn, entriesOn, if_neg (by decide)]
    rfl
  refine ⟨⟨describes_cyclic.checked, hcyclic, by rw [hcyclic]; exact id⟩,
    ⟨describes_unordered.checked, hunordered, hlist, ?_⟩, describes_huge.checked, hhuge, by rw [hhuge]; exact id⟩
  rw [hunordered]
  rintro ⟨es, hes, hsorted, -⟩
  rw [hlist] at hes
  cases hes
  have hlt : "b" < "a" := (sortedKeys_cons.1 hsorted).1 ("a", "2") (by simp)
  exact absurd hlt (by decide)

/-- **Which files can be loaded safely**: those that do not describe a tree, on which a load fails, and
    those that describe a tree of the right shape. -/
theorem load_safe_iff (machine : Machine) (file : Bytes) :
    Safe machine (loadExactOn machine file).2 ↔ ∀ t, Describes file t → t.WellShaped machine := by
  constructor
  · intro hsafe t ht
    rw [loadExactOn, loadExact_of_describes ht] at hsafe
    exact (checkCount_safe ht.arena ht.root).1 hsafe
  · intro h
    rcases loadExact_cases file with ⟨e, he⟩ | hnew | ⟨t, ht⟩
    · rw [loadExactOn, he]
      exact trivial
    · rw [loadExactOn, hnew]
      exact new_safe machine
    · rw [loadExactOn, loadExact_of_describes ht]
      exact (checkCount_safe ht.arena ht.root).2 (h t ht)

/-- **On a machine that is large enough for the file**, a load is that of `loadExact`. -/
theorem loadExactOn_eq (machine : Machine) (file : Bytes) (h : ∀ t, Describes file t → t.Fits machine) :
    (loadExactOn machine file).2 = (loadExact file).2 := by
  rcases loadExact_cases file with ⟨e, he⟩ | hnew | ⟨t, ht⟩
  · rw [loadExactOn, loadExact, he, he]
  · rw [loadExactOn, loadExact, hnew, hnew]
  · rw [loadExactOn, loadExact, loadExact_of_describes ht, loadExact_of_describes ht]
    exact checkCountOn_eq ht.arena ht.root (h t ht)

end BTreeIndex

end NutDb
