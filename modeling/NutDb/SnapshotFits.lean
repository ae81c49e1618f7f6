/-
  Which indexes can be saved.

  A save writes every node of the tree into a page of its own, so it succeeds
  exactly if every node fits one (`nodePage_iff`) and the page file does not get
  too large (`saveTemp_iff`).
-/
import NutDb.SnapshotSpec
import NutDb.PageRuns

namespace NutDb

open Lib BTree

namespace BTreeIndex

/-! ## Nodes that fit a page -/

/-- What an entry of a node needs in its page: a slot and a length field, the lengths of the key and
    the value, both texts, and the child behind it. -/
def itemBytes (node : Node) (key value : String) : ℕ :=
  4 + (8 + (utf8 key).length + (utf8 value).length) + if node.leaf then 0 else 8

/-- What a node needs in its page. -/
def nodeBytes (node : Node) : ℕ :=
  (if node.leaf then 0 else 4 + 8) + (List.zipWith (itemBytes node) node.keys node.values).sum

section Pages
variable {node : Node} {count : ℕ}

theorem needed_concat (cells : List Bytes) (c : Bytes) :
    SlottedPage.needed (cells ++ [c]) = SlottedPage.needed cells + (c.length + 4) := by
  simp [SlottedPage.needed]

theorem needed_le {b : Page} {k : SlottedPage.PageKind} {cs : List Bytes} (hb : SlottedPage.Holds b k cs) :
    SlottedPage.needed cs ≤ PAGE_SIZE - SlottedPage.HEADER_SIZE := by
  have hroom := hb.room
  rw [SlottedPage.needed_eq]
  omega

/-- The cell of an entry takes the bytes that it should, unless it cannot be encoded at all. -/
theorem itemCell_cases (hw : Writable count node) {i : ℕ} {key value : String} (hk : node.keys[i]? = some key)
    (hv : node.values[i]? = some value) :
    (∃ cell, itemCell node i = .ok cell ∧ cell.length + 4 = itemBytes node key value) ∨
    (PAGE_SIZE < itemBytes node key value ∧ ∃ e, itemCell node i = .error e) := by
  have hP : PAGE_SIZE = 4096 := rfl
  have hi : i < node.keys.length := (List.getElem?_eq_some_iff.1 hk).1
  rw [itemCell, Res.get_of_getElem? hk, Res.ok_bind, Res.get_of_getElem? hv, Res.ok_bind]
  by_cases hfit : (utf8 key).length < 2 ^ 32 ∧ (utf8 value).length < 2 ^ 32
  · rw [encodePair, if_pos hfit.1, if_pos hfit.2, Res.ok_bind]
    split_ifs with hleaf
    · refine Or.inl ⟨_, rfl, ?_⟩
      simp only [itemBytes, hleaf, List.length_append, length_le, if_true]
      omega
    · have hchild : i + 1 < node.children.length := by
        rw [hw.children (by simpa using hleaf)]
        omega
      rw [Res.get_of_getElem? (List.getElem?_eq_getElem hchild)]
      refine Or.inl ⟨_, rfl, ?_⟩
      simp only [itemBytes, hleaf, pageNumber, List.length_append, length_le, Bool.false_eq_true, if_false]
      omega
  · refine Or.inr ⟨by rw [itemBytes]; omega, ?_⟩
    unfold encodePair
    by_cases hlk : (utf8 key).length < 2 ^ 32
    · rw [if_pos hlk, if_neg fun hlv => hfit ⟨hlk, hlv⟩]
      exact ⟨_, rfl⟩
    · rw [if_neg hlk]
      exact ⟨_, rfl⟩

/-- **Inserting cells of known sizes** succeeds exactly if they all fit. -/
theorem foldlM_insert_iff {f : ℕ → Res Bytes} (size : ℕ → ℕ) {l : List ℕ}
    (hsize : ∀ i ∈ l, (∃ cell, f i = .ok cell ∧ cell.length + 4 = size i) ∨
      (PAGE_SIZE < size i ∧ ∃ e, f i = .error e))
    {b : Page} {k : SlottedPage.PageKind} {cs : List Bytes} (hb : SlottedPage.Holds b k cs) :
    (∃ b' cs', l.foldlM (fun page item => do
        let cell ← f item
        SlottedPage.insert page cell) b = .ok b' ∧ SlottedPage.Holds b' k cs') ↔
      SlottedPage.needed cs + (l.map size).sum ≤ PAGE_SIZE - SlottedPage.HEADER_SIZE := by
  have hP : PAGE_SIZE = 4096 := rfl
  have hH : SlottedPage.HEADER_SIZE = 16 := rfl
  induction l generalizing b cs with
  | nil => exact iff_of_true ⟨b, cs, rfl, hb⟩ (by simpa using needed_le hb)
  | cons i l ih =>
    rw [List.foldlM_cons, List.map_cons, List.sum_cons]
    obtain ⟨cell, hcell, hlen⟩ | ⟨hlong, e, he⟩ := hsize i (by simp)
    · rw [hcell, Res.ok_bind]
      have hneeded := needed_concat cs cell
      obtain ⟨hroom, b₁, hins, hb₁⟩ | ⟨hfull, hins⟩ := SlottedPage.insert_holds (c := cell) hb
      · have hrest := ih (fun j hj => hsize j (by simp [hj])) hb₁
        rw [hneeded, hlen, Nat.add_assoc] at hrest
        rw [hins, Res.ok_bind]
        exact hrest
      · refine iff_of_false ?_ ?_
        · rintro ⟨b', cs', h, -⟩
          rcases hins with hins | hins
          · rw [hins] at h
            cases h
          · rw [hins] at h
            cases h
        · have hused : PAGE_SIZE < SlottedPage.HEADER_SIZE + SlottedPage.needed (cs ++ [cell]) := by
            rw [SlottedPage.needed_eq, List.length_append, List.length_singleton]
            omega
          omega
    · refine iff_of_false ?_ (by omega)
      rintro ⟨b', cs', h, -⟩
      rw [he] at h
      cases h

/-- The sizes of the entries, by their indices. -/
theorem map_itemBytes (hw : Writable count node) :
    List.zipWith (itemBytes node) node.keys node.values =
      (List.range node.keys.length).map fun i => itemBytes node (node.keys.getD i "") (node.values.getD i "") := by
  have hlen := hw.values
  refine List.ext_getElem (by simp [hlen]) fun i h₁ h₂ => ?_
  have hi : i < node.keys.length := by simpa using h₂
  simp [List.getD_eq_getElem?_getD, hi, hlen]

/-- **The page of a node** can be built exactly if its entries fit. -/
theorem nodePage_iff (hw : Writable count node) :
    (∃ b, nodePage node = .ok b) ↔ nodeBytes node ≤ PAGE_SIZE - SlottedPage.HEADER_SIZE := by
  obtain ⟨b, cs, hstart, hb, hcs⟩ : ∃ b cs, startPage node = .ok b ∧
      SlottedPage.Holds b (if node.leaf then .leaf else .internal) cs ∧
      SlottedPage.needed cs = if node.leaf then 0 else 4 + 8 := by
    unfold startPage
    split_ifs with hleaf
    · obtain ⟨b, hnew, hb⟩ := SlottedPage.new_holds .leaf
      exact ⟨b, [], hnew, hb, rfl⟩
    · obtain ⟨b, hnew, hb⟩ := SlottedPage.new_holds .internal
      have hchild : 0 < node.children.length := by
        rw [hw.children (by simpa using hleaf)]
        omega
      rw [hnew, Res.ok_bind, Res.get_of_getElem? (List.getElem?_eq_getElem hchild), Res.ok_bind]
      have hlen : (pageNumber node.children[0]).length = 8 := by simp [pageNumber]
      obtain ⟨-, b', hins, hb'⟩ | ⟨hfull, -⟩ := SlottedPage.insert_holds (c := pageNumber node.children[0]) hb
      · exact ⟨b', _, hins, hb', by simp [SlottedPage.needed, hlen]⟩
      · simp [SlottedPage.used, hlen, PAGE_SIZE, SlottedPage.HEADER_SIZE] at hfull
  have hfold := foldlM_insert_iff (f := itemCell node)
    (fun i => itemBytes node (node.keys.getD i "") (node.values.getD i ""))
    (l := List.range node.keys.length) (fun i hi => ?_) hb
  · rw [nodeBytes, map_itemBytes hw, ← hcs, ← hfold, nodePage, hstart, Res.ok_bind]
    constructor
    · rintro ⟨b', h⟩
      obtain ⟨b₁, h₁, -⟩ := Res.bind_eq_ok.1 h
      obtain ⟨cells, -, hb₁⟩ := foldlM_insert_holds hb h₁
      exact ⟨b₁, _, h₁, hb₁⟩
    · rintro ⟨b₁, cs', h₁, hb₁⟩
      obtain ⟨b', hfinish, -⟩ := SlottedPage.finish_holds hb₁
      exact ⟨b', by rw [h₁, Res.ok_bind, hfinish]⟩
  · have hk : i < node.keys.length := List.mem_range.1 hi
    have hv : i < node.values.length := by
      rw [hw.values]
      exact hk
    refine itemCell_cases hw ?_ ?_
    · rw [List.getD_eq_getElem?_getD, List.getElem?_eq_getElem hk, Option.getD_some]
    · rw [List.getD_eq_getElem?_getD, List.getElem?_eq_getElem hv, Option.getD_some]

end Pages

/-- All nodes fit their pages, and the page file has a size that a file can have. -/
def FitsPages (t : BTreeIndex) : Prop :=
  (∀ node ∈ t.nodes, nodeBytes node ≤ PAGE_SIZE - SlottedPage.HEADER_SIZE) ∧
    (t.nodes.length + 1) * PAGE_SIZE < 2 ^ 63

/-- **A save** succeeds exactly if the tree fits its pages. -/
theorem saveTemp_iff {t : BTreeIndex} {es : List (String × String)} (ht : t.Represents es) :
    t.saveTemp.2 = .ok () ↔ FitsPages t := by
  have hwritable : (t.nodes.length + 1) * PAGE_SIZE < 2 ^ 63 → ∀ node ∈ t.nodes, Writable t.nodes.length node := by
    intro hsize node hnode
    refine writable_of_mem ht hnode ?_
    rw [show PAGE_SIZE = 4096 from rfl] at hsize
    omega
  constructor
  · intro h
    obtain ⟨-, -, pgs, -, -, hpages, hsize, -⟩ :=
      saveTemp_ok (show t.saveTemp = (t.saveTemp.1, .ok ()) by rw [← h])
    rw [Res.length_of_mapM hpages] at hsize
    refine ⟨fun node hnode => ?_, hsize⟩
    obtain ⟨i, hi⟩ := List.getElem?_of_mem hnode
    have hlt : i < pgs.length := by
      rw [Res.length_of_mapM hpages]
      exact (List.getElem?_eq_some_iff.1 hi).1
    exact (nodePage_iff (hwritable hsize node hnode)).1
      ⟨_, Res.getElem?_of_mapM hpages hi (List.getElem?_eq_getElem hlt)⟩
  · rintro ⟨hfits, hsize⟩
    obtain ⟨mp, hmp⟩ := metaPage_ok t
    obtain ⟨pgs, hpages⟩ := Res.mapM_of_ok (f := nodePage) fun node hnode =>
      (nodePage_iff (hwritable hsize node hnode)).2 (hfits node hnode)
    refine saveTemp_of_pages pgs hmp hpages ?_
    rw [Res.length_of_mapM hpages]
    exact hsize

end BTreeIndex

end NutDb
