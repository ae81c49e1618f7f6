/-
  A saved snapshot is loaded as the tree it was made from.
-/
import NutDb.Snapshot

namespace NutDb

open Lib BTree

namespace BTreeIndex

/-! ## Cells -/

section Cells
variable {key value : String} {cell : Bytes}

theorem slice_append_left {a b : Bytes} : slice (a ++ b) 0 a.length = a := by
  simp [slice]

theorem slice_append_right {a b c : Bytes} {n : ℕ} (h : a.length = n) :
    slice (a ++ (b ++ c)) n b.length = b := by
  rw [slice, List.drop_left' h, List.take_left' rfl]

theorem encodePair_eq_ok : encodePair key value = .ok cell ↔
    (utf8 key).length < 2 ^ 32 ∧ (utf8 value).length < 2 ^ 32 ∧
      cell = le 4 (utf8 key).length ++ le 4 (utf8 value).length ++ utf8 key ++ utf8 value := by
  unfold encodePair
  split_ifs with h1 h2
  · rw [Except.ok.injEq]; exact ⟨fun h => ⟨h1, h2, h.symm⟩, fun h => h.2.2.symm⟩
  · exact ⟨fun h => (nomatch h), fun h => absurd h.2.1 h2⟩
  · exact ⟨fun h => (nomatch h), fun h => absurd h.1 h1⟩

/-- A pair is decoded from the cell it was encoded in, whatever follows it. -/
theorem decodePair_encodePair (h : encodePair key value = .ok cell) (rest : Bytes) :
    decodePair (cell ++ rest) = .ok (key, value, cell.length) := by
  obtain ⟨hk, hv, rfl⟩ := encodePair_eq_ok.1 h
  obtain ⟨k, hkk⟩ : ∃ k, k = utf8 key := ⟨_, rfl⟩
  obtain ⟨v, hvv⟩ : ∃ v, v = utf8 value := ⟨_, rfl⟩
  rw [← hkk] at hk ⊢
  rw [← hvv] at hv ⊢
  have hlen : (le 4 k.length ++ le 4 v.length ++ k ++ v).length = 8 + k.length + v.length := by
    simp; omega
  have h1 : slice (le 4 k.length ++ le 4 v.length ++ k ++ v ++ rest) 0 4 = le 4 k.length := by
    have := slice_append_left (a := le 4 k.length) (b := le 4 v.length ++ k ++ v ++ rest)
    rw [length_le] at this
    simpa using this
  have h2 : slice (le 4 k.length ++ le 4 v.length ++ k ++ v ++ rest) 4 4 = le 4 v.length := by
    have := slice_append_right (a := le 4 k.length) (b := le 4 v.length) (c := k ++ v ++ rest)
      (length_le 4 _)
    rw [length_le] at this
    simpa using this
  have h3 : slice (le 4 k.length ++ le 4 v.length ++ k ++ v ++ rest) 8 k.length = k := by
    have := slice_append_right (a := le 4 k.length ++ le 4 v.length) (b := k) (c := v ++ rest)
      (n := 8) (by simp)
    simpa using this
  have h4 : slice (le 4 k.length ++ le 4 v.length ++ k ++ v ++ rest) (8 + k.length) v.length = v := by
    have := slice_append_right (a := le 4 k.length ++ le 4 v.length ++ k) (b := v) (c := rest)
      (n := 8 + k.length) (by simp; omega)
    simpa using this
  have hko : ofLe (le 4 k.length) = k.length := ofLe_le_of_lt (lt_of_lt_of_le hk (by norm_num))
  have hvo : ofLe (le 4 v.length) = v.length := ofLe_le_of_lt (lt_of_lt_of_le hv (by norm_num))
  have hle : 8 + k.length + v.length ≤ (le 4 k.length ++ le 4 v.length ++ k ++ v ++ rest).length := by
    rw [List.length_append, hlen]; omega
  unfold decodePair
  rw [if_neg (by omega)]
  simp only [h1, h2, hko, hvo, if_pos hle, h3, h4, hlen]
  rw [hkk, hvv]
  simp

theorem takeU64_of_at {n o : ℕ} (ha : At cell o (le 8 n)) (hn : n < 2 ^ 64)
    (ho : o + 8 ≤ cell.length) : takeU64 cell o = .ok n := by
  have hs : slice cell o 8 = le 8 n := by have := ha; unfold At at this; rwa [length_le] at this
  rw [takeU64, if_pos ho, hs, ofLe_le_of_lt (lt_of_lt_of_le hn (by norm_num))]

theorem pageToIndex_of_lt {id count : ℕ} (h : id < count) : pageToIndex (id + 1) count = .ok id :=
  if_pos ⟨by omega, by simpa using h⟩

end Cells

/-! ## Node pages -/

section Nodes
variable {node : Node} {count : ℕ}

/-- A node whose page can be read back: its lists fit together and its children are nodes. -/
structure Writable (count : ℕ) (node : Node) : Prop where
  values : node.values.length = node.keys.length
  children : node.leaf = false → node.children.length = node.keys.length + 1
  inRange : ∀ c ∈ node.children, c < count
  small : count < 2 ^ 63

/-- Inserting the cells of a list one after the other. -/
theorem foldlM_insert_holds {α : Type} {f : α → Res Bytes} {l : List α} {b b' : Page}
    {k : SlottedPage.PageKind} {cs : List Bytes} (hb : SlottedPage.Holds b k cs)
    (h : l.foldlM (fun page item => do
      let cell ← f item
      SlottedPage.insert page cell) b = .ok b') :
    ∃ cells, l.mapM f = .ok cells ∧ SlottedPage.Holds b' k (cs ++ cells) := by
  induction l generalizing b cs with
  | nil =>
    cases h
    exact ⟨[], rfl, by simpa using hb⟩
  | cons a l ih =>
    rw [List.foldlM_cons, Res.bind_eq_ok] at h
    obtain ⟨b₁, h1, h2⟩ := h
    obtain ⟨cell, hc, hi⟩ := Res.bind_eq_ok.1 h1
    obtain ⟨-, b₁', hi', hb₁⟩ | ⟨-, hf | hf⟩ := SlottedPage.insert_holds (c := cell) hb
    · rw [hi] at hi'; cases hi'
      obtain ⟨cells, hm, hb'⟩ := ih hb₁ h2
      exact ⟨cell :: cells, by rw [List.mapM_cons, hc, Res.ok_bind, hm]; rfl, by simpa using hb'⟩
    · rw [hi] at hf; cases hf
    · rw [hi] at hf; cases hf

theorem startPage_holds {b : Page} (h : startPage node = .ok b) :
    (node.leaf = true ∧ SlottedPage.Holds b .leaf []) ∨
    (node.leaf = false ∧ ∃ child, node.children[0]? = some child ∧
      SlottedPage.Holds b .internal [pageNumber child]) := by
  unfold startPage at h
  split_ifs at h with hl
  · obtain ⟨b', hn, hb⟩ := SlottedPage.new_holds .leaf
    rw [h] at hn; cases hn
    exact Or.inl ⟨hl, hb⟩
  · obtain ⟨b', hn, hb⟩ := SlottedPage.new_holds .internal
    rw [hn, Res.ok_bind, Res.bind_eq_ok] at h
    obtain ⟨child, hc, hi⟩ := h
    refine Or.inr ⟨by simpa using hl, child, Res.get_eq_ok.1 hc, ?_⟩
    obtain ⟨-, b₁, hi', hb₁⟩ | ⟨-, hf | hf⟩ := SlottedPage.insert_holds (c := pageNumber child) hb
    · rw [hi] at hi'; cases hi'; exact hb₁
    · rw [hi] at hf; cases hf
    · rw [hi] at hf; cases hf

/-- The first `i` items of a node. -/
def takeItems (node : Node) (i : ℕ) : Node :=
  ⟨node.keys.take i, node.values.take i, node.children.take (i + 1)⟩

theorem takeItems_all (hw : Writable count node) : takeItems node node.keys.length = node := by
  have hc : node.children.take (node.keys.length + 1) = node.children := by
    rcases hl : node.leaf with _ | _
    · rw [← hw.children hl, List.take_length]
    · rw [Node.leaf, List.isEmpty_iff] at hl; simp [hl]
  have hv : node.values.take node.keys.length = node.values := by rw [← hw.values, List.take_length]
  simp only [takeItems, List.take_length, hv, hc]

/-- One item of a node is decoded from its cell. -/
theorem decodeItem_itemCell {i : ℕ} {cell : Bytes} (hw : Writable count node)
    (h : itemCell node i = .ok cell) :
    decodeItem (!node.leaf) count (takeItems node i) cell = .ok (takeItems node (i + 1)) := by
  simp only [itemCell, Res.bind_eq_ok] at h
  obtain ⟨key, hk, value, hv, pair, hp, h⟩ := h
  rw [Res.get_eq_ok] at hk hv
  rcases hl : node.leaf with _ | _
  · simp only [hl, Bool.false_eq_true, if_false, Res.bind_eq_ok] at h
    obtain ⟨child, hc, h⟩ := h
    cases h
    rw [Res.get_eq_ok] at hc
    have hlt := hw.inRange child (List.mem_of_getElem? hc)
    have hsmall := hw.small
    have hat : At (pair ++ pageNumber child) pair.length (le 8 (child + 1)) := by
      have := slice_append_right (a := pair) (b := pageNumber child) (c := []) rfl
      rw [List.append_nil] at this
      exact this
    have htake := takeU64_of_at hat (by omega) (by simp [pageNumber])
    have hlen : pair.length + 8 = (pair ++ pageNumber child).length := by simp [pageNumber]
    simp only [decodeItem, decodePair_encodePair hp, Res.ok_bind, Bool.not_false, if_true, htake,
      pageToIndex_of_lt hlt, ← hlen, ne_eq, not_true_eq_false, if_false, Res.pure_eq, takeItems,
      List.take_add_one (i := i), hk, hv, List.take_add_one (i := i + 1), hc, Option.toList_some]
  · simp only [hl, if_true, Res.pure_eq] at h
    cases h
    have hc : node.children = [] := by rwa [Node.leaf, List.isEmpty_iff] at hl
    have hdec := decodePair_encodePair hp []
    rw [List.append_nil] at hdec
    simp only [decodeItem, hdec, Res.ok_bind, Bool.not_true, Bool.false_eq_true, if_false,
      ne_eq, not_true_eq_false, Res.pure_eq, takeItems, List.take_add_one (i := i), hk, hv,
      Option.toList_some, hc, List.take_nil]
    rfl

/-- The items of a node are decoded from their cells. -/
theorem foldlM_decodeItem {cells : List Bytes} (hw : Writable count node)
    (h : (List.range node.keys.length).mapM (itemCell node) = .ok cells) :
    cells.foldlM (decodeItem (!node.leaf) count) (takeItems node 0) = .ok node := by
  have hloop : ∀ n cs, (List.range n).mapM (itemCell node) = .ok cs →
      cs.foldlM (decodeItem (!node.leaf) count) (takeItems node 0) = .ok (takeItems node n) := by
    intro n
    induction n with
    | zero => intro cs h; cases h; rfl
    | succ n ih =>
      intro cs h
      rw [List.range_succ, List.mapM_append, Res.bind_eq_ok] at h
      obtain ⟨cs₁, h1, h⟩ := h
      obtain ⟨cs₂, h2, h⟩ := Res.bind_eq_ok.1 h
      rw [List.mapM_cons, Res.bind_eq_ok] at h2
      obtain ⟨cell, hc, h2⟩ := h2
      cases h2
      cases h
      rw [List.foldlM_append, ih cs₁ h1, Res.ok_bind, List.foldlM_cons, decodeItem_itemCell hw hc]
      rfl
  rw [hloop _ _ h, takeItems_all hw]

/-- **Round trip of a node.** -/
theorem decodeNode_nodePage {b : Page} (hw : Writable count node) (h : nodePage node = .ok b) :
    decodeNode b count = .ok node := by
  simp only [nodePage, Res.bind_eq_ok] at h
  obtain ⟨b₀, h0, b₁, h1, h2⟩ := h
  have hcheck : ¬ (¬ node.leaf ∧ node.children.length ≠ node.keys.length + 1) := by
    rintro ⟨hl, hc⟩
    exact hc (hw.children (by simpa using hl))
  rcases startPage_holds h0 with ⟨hl, hb₀⟩ | ⟨hl, child, hc0, hb₀⟩
  · obtain ⟨cells, hm, hb₁⟩ := foldlM_insert_holds hb₀ h1
    obtain ⟨b', hf, hfrom, hkind, hcells⟩ := SlottedPage.fromBytes_finish hb₁
    rw [h2] at hf; cases hf
    have hdec := foldlM_decodeItem hw hm
    have hc : node.children = [] := by rwa [Node.leaf, List.isEmpty_iff] at hl
    have h00 : takeItems node 0 = {} := by simp [takeItems, hc]
    rw [hl, Bool.not_true, h00] at hdec
    simp only [decodeNode, hfrom, hkind, hcells, Res.ok_bind, decodeCells, List.nil_append, hdec,
      if_neg hcheck, Res.pure_eq]
  · obtain ⟨cells, hm, hb₁⟩ := foldlM_insert_holds hb₀ h1
    obtain ⟨b', hf, hfrom, hkind, hcells⟩ := SlottedPage.fromBytes_finish hb₁
    rw [h2] at hf; cases hf
    have hdec := foldlM_decodeItem hw hm
    have h00 : takeItems node 0 = { children := [child] } := by
      simp [takeItems, List.take_add_one, hc0]
    rw [hl, Bool.not_false, h00] at hdec
    have hlt := hw.inRange child (List.mem_of_getElem? hc0)
    have hsmall := hw.small
    have hat : At (pageNumber child) 0 (le 8 (child + 1)) := slice_zero_length _
    have htake := takeU64_of_at hat (by omega) (by simp [pageNumber])
    have hlen : (pageNumber child).length = 8 := length_le 8 _
    simp only [decodeNode, hfrom, hkind, hcells, Res.ok_bind, decodeCells, List.singleton_append,
      hlen, ne_eq, not_true_eq_false, if_false, htake, pageToIndex_of_lt hlt, hdec]
    rw [if_neg hcheck]
    rfl

end Nodes

/-! ## Saving -/

section Save
variable {base : Bytes} {p : Pager} {arr : List Page} {t : BTreeIndex}

theorem allocateNodes_rep (nodes : List Node) (hr : Pager.Rep base p arr)
    (hp : p.pages = arr.length) :
    ∃ p', (allocateNodes nodes).run p = (.ok (), p') ∧
      Pager.Rep base p' (arr ++ List.replicate nodes.length Page.zero) ∧
      p'.pages = (arr ++ List.replicate nodes.length Page.zero).length := by
  induction nodes generalizing p arr with
  | nil => exact ⟨p, rfl, by simpa using hr, by simpa using hp⟩
  | cons n nodes ih =>
    obtain ⟨p₁, h1, hr₁, hp₁⟩ := hr.allocate hp
    obtain ⟨p', h2, hr', hp'⟩ := ih hr₁ hp₁
    have harr : arr ++ [Page.zero] ++ List.replicate nodes.length Page.zero =
        arr ++ List.replicate (n :: nodes).length Page.zero := by
      simp [List.replicate_succ]
    rw [harr] at hr' hp'
    exact ⟨p', by rw [allocateNodes, Act.run_bind_ok h1, h2], hr', hp'⟩

/-- Writing the node pages over the allocated ones. -/
theorem writeNodes_rep {nodes : List Node} {done rest pgs : List Page}
    (hr : Pager.Rep base p (done ++ rest)) (hp : p.pages = (done ++ rest).length)
    (hrest : rest.length = nodes.length) {index : ℕ} (hi : done.length = index + 1)
    (hm : nodes.mapM nodePage = .ok pgs) :
    ∃ p', (writeNodes index nodes).run p = (.ok (), p') ∧ Pager.Rep base p' (done ++ pgs) ∧
      p'.pages = (done ++ pgs).length := by
  induction nodes generalizing p done rest index pgs with
  | nil =>
    obtain rfl : rest = [] := List.length_eq_zero_iff.1 hrest
    cases hm
    exact ⟨p, rfl, hr, hp⟩
  | cons n nodes ih =>
    obtain ⟨z, rest, rfl⟩ := List.exists_cons_of_length_eq_add_one hrest
    rw [List.mapM_cons, Res.bind_eq_ok] at hm
    obtain ⟨pg, hpg, hm⟩ := hm
    obtain ⟨pgs', hm', heq⟩ := Res.bind_eq_ok.1 hm
    cases heq
    obtain ⟨p₁, hw, hr₁, hp₁⟩ := hr.write (index + 1) pg (by simp; omega)
      (by rw [hp]; simp; omega)
    have hput : Pager.putPage (done ++ z :: rest) (index + 1) pg = done ++ [pg] ++ rest := by
      rw [Pager.putPage, ← hi, List.take_left' rfl, ← List.drop_drop, List.drop_left' rfl]
      simp
    rw [hput] at hr₁
    have hlen : p₁.pages = (done ++ [pg] ++ rest).length := by
      rw [hp₁, hp]; simp; omega
    obtain ⟨p', h, hr', hp'⟩ := ih hr₁ hlen (by simpa using hrest) (by simp; omega) hm'
    refine ⟨p', ?_, by simpa using hr', by simpa using hp'⟩
    rw [writeNodes, Act.run_bind_ok (by rw [Act.run_lift, hpg]), Act.run_bind_ok hw, h]

/-- Node pages that were written were built. -/
theorem mapM_nodePage_of_writeNodes {nodes : List Node} {index : ℕ} {p' : Pager}
    (h : (writeNodes index nodes).run p = (.ok (), p')) : ∃ pgs, nodes.mapM nodePage = .ok pgs := by
  induction nodes generalizing p index with
  | nil => exact ⟨[], rfl⟩
  | cons n nodes ih =>
    rw [writeNodes, Act.run_bind_eq_ok] at h
    obtain ⟨pg, p₀, h0, h⟩ := h
    rw [Act.run_lift, Prod.mk.injEq] at h0
    obtain ⟨-, p₁, -, h⟩ := Act.run_bind_eq_ok.1 h
    obtain ⟨pgs, hpgs⟩ := ih h
    exact ⟨pg :: pgs, by rw [List.mapM_cons, h0.1, Res.ok_bind, hpgs]; rfl⟩

theorem freshPager_rep : Pager.Rep [] freshPager [] :=
  ⟨by decide, by decide, fun _ _ h => by simp [freshPager] at h, fun _ _ h => by simp at h, rfl⟩

/-- A flush fails only if the file would be too large. -/
theorem flush_size {p' : Pager} (hp : p.pages = arr.length) (hr : Pager.Rep base p arr)
    (h : Pager.flush.run p = (.ok (), p')) : arr.length * PAGE_SIZE < 2 ^ 63 := by
  by_contra hsize
  have hpg := (hr.foldl_flushOne ((p.cache.filter fun e => e.2.dirty).map Prod.fst)).2.1
  simp only [Pager.flush, Act.run_bind, Act.run_modify, Act.run_gets, hpg, hp, if_neg hsize,
    Act.run_fail, Res.fail, Prod.mk.injEq, reduceCtorEq, false_and] at h

/-- **What a successful save leaves in the temporary file**: the metadata page and the page of
    every node, durably. -/
theorem saveTemp_ok {ops : List (DiskOp FileName)} (h : t.saveTemp = (ops, .ok ())) :
    ∃ (fops : List FileOp) (mp : Page) (pgs : List Page), ops = [.remove .tmp, .truncate .tmp] ++ fops.map (.file .tmp) ∧
      t.metaPage = .ok mp ∧ t.nodes.mapM nodePage = .ok pgs ∧
      (pgs.length + 1) * PAGE_SIZE < 2 ^ 63 ∧
      fops.foldl (fun f op => op.run f) (File.settled []) =
        File.settled ((mp :: pgs).flatMap Subtype.val) := by
  rcases hrun : t.savePages.run freshPager with ⟨r, p⟩
  simp only [saveTemp, hrun, Prod.mk.injEq] at h
  obtain ⟨hops, rfl⟩ := h
  simp only [savePages] at hrun
  obtain ⟨p₁, h1, hr₁, hp₁⟩ := freshPager_rep.allocate rfl
  rw [Act.run_bind_ok h1] at hrun
  obtain ⟨p₂, h2, hr₂, hp₂⟩ := allocateNodes_rep t.nodes hr₁ hp₁
  rw [Act.run_bind_ok h2] at hrun
  obtain ⟨mp, p₃, h3, hrun⟩ := Act.run_bind_eq_ok.1 hrun
  rw [Act.run_lift, Prod.mk.injEq] at h3
  obtain ⟨hmp, rfl⟩ := h3
  obtain ⟨p₄, h4, hr₄, hp₄⟩ := hr₂.write 0 mp (by simp) (by simp)
  rw [Act.run_bind_ok h4] at hrun
  obtain ⟨u, p₅, h5, hrun⟩ := Act.run_bind_eq_ok.1 hrun
  have hput : Pager.putPage ([] ++ [Page.zero] ++ List.replicate t.nodes.length Page.zero) 0 mp =
      [mp] ++ List.replicate t.nodes.length Page.zero := rfl
  rw [hput] at hr₄
  obtain ⟨pgs, hm⟩ := mapM_nodePage_of_writeNodes h5
  obtain ⟨p₅', h5', hr₅, hp₅⟩ := writeNodes_rep hr₄ (by rw [hp₄, hp₂]; simp) (by simp)
    (show [mp].length = 0 + 1 from rfl) hm
  rw [h5, Prod.mk.injEq] at h5'
  obtain ⟨-, rfl⟩ := h5'
  have hsize := flush_size hp₅ hr₅ hrun
  obtain ⟨p₆, h6, hr₆, hp₆, -⟩ := hr₅.flush hp₅ hsize
  rw [h6, Prod.mk.injEq] at hrun
  obtain ⟨-, rfl⟩ := hrun
  -- the flush of the drop
  obtain ⟨p₇, h7, -, -, hfile, hsettled⟩ := hr₆.flush hp₆ hsize
  rw [h7] at hops
  refine ⟨p₇.issued, mp, pgs, hops.symm, hmp, hm, by simpa using hsize, ?_⟩
  rw [hsettled, hfile]
  rfl

/-- A save whose pages can be built and whose file is not too large succeeds. -/
theorem saveTemp_of_pages {mp : Page} (pgs : List Page) (hmp : t.metaPage = .ok mp)
    (hm : t.nodes.mapM nodePage = .ok pgs) (hsize : (pgs.length + 1) * PAGE_SIZE < 2 ^ 63) :
    t.saveTemp.2 = .ok () := by
  obtain ⟨p₁, h1, hr₁, hp₁⟩ := freshPager_rep.allocate rfl
  obtain ⟨p₂, h2, hr₂, hp₂⟩ := allocateNodes_rep t.nodes hr₁ hp₁
  obtain ⟨p₄, h4, hr₄, hp₄⟩ := hr₂.write 0 mp (by simp) (by simp)
  have hput : Pager.putPage ([] ++ [Page.zero] ++ List.replicate t.nodes.length Page.zero) 0 mp =
      [mp] ++ List.replicate t.nodes.length Page.zero := rfl
  rw [hput] at hr₄
  obtain ⟨p₅, h5, hr₅, hp₅⟩ := writeNodes_rep hr₄ (by rw [hp₄, hp₂]; simp) (by simp)
    (show [mp].length = 0 + 1 from rfl) hm
  obtain ⟨p₆, h6, -⟩ := hr₅.flush hp₅ (by simpa using hsize)
  have hrun : t.savePages.run freshPager = (.ok (), p₆) := by
    rw [savePages, Act.run_bind_ok h1, Act.run_bind_ok h2,
      Act.run_bind_ok (by rw [Act.run_lift, hmp]), Act.run_bind_ok h4, Act.run_bind_ok h5, h6]
  simp only [saveTemp, hrun]

/-- The metadata cell fits a page. -/
theorem metaPage_ok (t : BTreeIndex) : ∃ mp, t.metaPage = .ok mp := by
  obtain ⟨b, hb, hholds⟩ := SlottedPage.new_holds .meta
  have hroom : ¬ PAGE_SIZE < SlottedPage.HEADER_SIZE + (([] : List Bytes).length + 1) * 2 +
      SlottedPage.used ([] ++ [t.metaCell]) := by
    simp [SlottedPage.used, metaCell, PAGE_SIZE, SlottedPage.HEADER_SIZE]
  obtain ⟨-, b', hi, hholds'⟩ | ⟨hfull, -⟩ := SlottedPage.insert_holds (c := t.metaCell) hholds
  · obtain ⟨mp, hmp, -⟩ := SlottedPage.fromBytes_finish hholds'
    exact ⟨mp, by simp only [metaPage, hb, Res.ok_bind, hi, hmp]⟩
  · exact absurd hfull hroom

/-- Whatever its result, a save first works on the temporary file only. -/
theorem saveTemp_ops (t : BTreeIndex) :
    ∃ fops : List FileOp, t.saveTemp.1 = [.remove .tmp, .truncate .tmp] ++ fops.map (.file .tmp) := ⟨_, rfl⟩

end Save

/-! ## Loading -/

section Writable
variable {nodes : List Node} {h id : ℕ}

/-- Every node of a subtree is well formed, and its children are nodes. -/
theorem node_of_mem_idsAt (hs : Sub nodes h id) {j : ℕ} (hj : j ∈ idsAt nodes h id) {n : Node}
    (hn : nodes[j]? = some n) :
    n.Ok ∧ (n.leaf = false → n.children.length = n.keys.length + 1) ∧
      ∀ c ∈ n.children, c < nodes.length := by
  induction h generalizing id with
  | zero =>
    rw [idsAt, List.mem_singleton] at hj
    subst hj
    obtain ⟨hok, hc⟩ := hs.leaf hn
    exact ⟨hok, fun hl => by simp [Node.leaf, hc] at hl, by simp [hc]⟩
  | succ h ih =>
    obtain ⟨m, hm, -⟩ := hs.node
    obtain ⟨hok, hlen, hch⟩ := hs.inner hm
    rw [idsAt_succ hm] at hj
    rcases List.mem_cons.1 hj with rfl | hj
    · rw [hm] at hn; cases hn
      exact ⟨hok, fun _ => hlen, fun c hc => (hch c hc).1.lt_length c mem_idsAt_self⟩
    · obtain ⟨c, hc, hjc⟩ := List.mem_flatMap.1 hj
      exact ih (hch c hc).1 hjc

/-- A subtree has at most `MAX_KEYS` entries for each of its nodes. -/
theorem length_entriesAt_le (hs : Sub nodes h id) :
    (entriesAt nodes h id).length ≤ MAX_KEYS * (idsAt nodes h id).length := by
  induction h generalizing id with
  | zero =>
    obtain ⟨n, hn, hok, -⟩ := hs
    rw [entriesAt_zero hn, idsAt, Node.kvs, List.length_zip, hok.1, Nat.min_self]
    simpa using hok.2
  | succ h ih =>
    obtain ⟨n, hn, hok, hlen, hch⟩ := hs
    have hweave : ∀ (cs : List ℕ) (ks : List (String × String)),
        (∀ c ∈ cs, Sub nodes h c) → (weave (cs.map (entriesAt nodes h)) ks).length ≤
          ks.length + MAX_KEYS * (cs.flatMap (idsAt nodes h)).length := by
      intro cs
      induction cs with
      | nil => intro ks _; simp [weave]
      | cons c cs ihc =>
        intro ks hcs
        have h1 := ih (hcs c (by simp))
        cases ks with
        | nil =>
          simp only [List.map_cons, weave, List.flatMap_cons, List.length_append, Nat.mul_add,
            List.length_nil]
          omega
        | cons k ks =>
          have h2 := ihc ks fun c' hc' => hcs c' (by simp [hc'])
          simp only [List.map_cons, weave, List.flatMap_cons, List.length_append, Nat.mul_add,
            List.length_cons]
          omega
    have h1 := hweave n.children n.kvs fun c hc => (hch c hc).1
    have h2 : n.kvs.length ≤ MAX_KEYS := by
      rw [Node.kvs, List.length_zip, hok.1, Nat.min_self]; exact hok.2
    rw [entriesAt_succ hn, idsAt_succ hn, List.length_cons, Nat.mul_succ]
    omega

end Writable

section Load
variable {base : Bytes} {p : Pager} {arr : List Page} {t : BTreeIndex}

/-- Reading the node pages. -/
theorem readNodes_rep (count : ℕ) {done pgs : List Page} (hr : Pager.Rep base p (done ++ pgs))
    (hp : p.pages = (done ++ pgs).length) : ∃ p', (readNodes count pgs.length done.length).run p =
      (pgs.mapM fun page => decodeNode page count, p') := by
  induction pgs generalizing p done with
  | nil => exact ⟨p, rfl⟩
  | cons pg pgs ih =>
    obtain ⟨p₁, h1, hr₁, hp₁⟩ := hr.read (a := pg) done.length (by simp) hp
    have harr : done ++ pg :: pgs = done ++ [pg] ++ pgs := by simp
    rw [harr] at hr₁ hp
    obtain ⟨p', h2⟩ := ih hr₁ (hp₁.trans hp)
    rw [List.length_append, List.length_singleton] at h2
    rw [List.length_cons, readNodes, Act.run_bind_ok h1, List.mapM_cons]
    rcases hdec : decodeNode pg count with fault | n
    · exact ⟨p₁, rfl⟩
    · rw [Act.run_bind_ok (Act.run_lift (.ok n) p₁), Act.run_bind, h2]
      rcases pgs.mapM fun page => decodeNode page count with fault | nodes
      · exact ⟨p', rfl⟩
      · exact ⟨p', rfl⟩

/-- The metadata page is read back. -/
theorem readMeta_metaPage {mp : Page} (h : t.metaPage = .ok mp) (hroot : t.root + 1 < 2 ^ 64)
    (hnodes : t.nodes.length < 2 ^ 64) (hlen : t.len < 2 ^ 64) :
    readMeta mp = .ok (t.root + 1, t.nodes.length, t.len) := by
  simp only [metaPage, Res.bind_eq_ok] at h
  obtain ⟨b₀, h0, b₁, h1, h2⟩ := h
  obtain ⟨b₀', h0', hb₀⟩ := SlottedPage.new_holds .meta
  rw [h0] at h0'; cases h0'
  have hb₁ : SlottedPage.Holds b₁ .meta [t.metaCell] := by
    obtain ⟨-, b₁', hi', hb₁⟩ | ⟨-, hf | hf⟩ := SlottedPage.insert_holds (c := t.metaCell) hb₀
    · rw [h1] at hi'; cases hi'; exact hb₁
    · rw [h1] at hf; cases hf
    · rw [h1] at hf; cases hf
  obtain ⟨b', hf, hfrom, hkind, hcells⟩ := SlottedPage.fromBytes_finish hb₁
  rw [h2] at hf; cases hf
  have h24 : t.metaCell.length = 24 := by simp [metaCell]
  have hat : At t.metaCell 0 t.metaCell := slice_zero_length _
  obtain ⟨hat12, hat3⟩ := At.append_iff.1 hat
  obtain ⟨hat1, hat2⟩ := At.append_iff.1 hat12
  simp only [List.length_append, length_le, Nat.zero_add] at hat2 hat3
  have e1 := takeU64_of_at hat1 hroot (by rw [h24]; omega)
  have e2 := takeU64_of_at hat2 hnodes (by rw [h24]; omega)
  have e3 := takeU64_of_at hat3 hlen (by rw [h24])
  simp only [readMeta, hfrom, hkind, hcells, Res.ok_bind, ne_eq, not_true_eq_false, if_false, h24,
    e1, e2, e3, Res.pure_eq]

/-- Every node of a tree can be read back. -/
theorem writable_of_mem {es : List (String × String)} (ht : t.Represents es) {n : Node} (hn : n ∈ t.nodes)
    (hsmall : t.nodes.length < 2 ^ 63) : Writable t.nodes.length n := by
  obtain ⟨h, hw, -⟩ := ht.whole
  obtain ⟨j, hj⟩ := List.getElem?_of_mem hn
  have hjlt := (List.getElem?_eq_some_iff.1 hj).1
  obtain ⟨h1, h2, h3⟩ := node_of_mem_idsAt hw.sub (hw.ids.mem_iff.2 (List.mem_range.2 hjlt)) hj
  exact ⟨h1.1, h2, h3, hsmall⟩

/-- What `load_exact` returns for a metadata page and the pages of nodes. -/
def loadArray (check : BTreeIndex → Res BTreeIndex) (mp : Page) (pgs : List Page) : Res BTreeIndex := do
  let (rootPage, nodeCount, len) ← readMeta mp
  if rootPage = 0 ∨ nodeCount = 0 ∨ pgs.length + 1 ≠ nodeCount + 1 then
    Res.fail .invalidData "btree: inconsistent metadata"
  else do
    let nodes ← pgs.mapM fun page => decodeNode page nodeCount
    let root ← pageToIndex rootPage nodeCount
    check ⟨nodes, root, len⟩

theorem loadPages_rep {mp : Page} {pgs : List Page} (check : BTreeIndex → Res BTreeIndex)
    (hr : Pager.Rep base p (mp :: pgs)) (hp : p.pages = (mp :: pgs).length) :
    ∃ p', (loadPagesWith check).run p = (loadArray check mp pgs, p') := by
  have hpages : p.pages = pgs.length + 1 := hp
  obtain ⟨p₁, e1, hr₁, hp₁⟩ := hr.read (a := mp) 0 rfl hp
  rw [loadPagesWith, Act.run_bind_ok (Act.run_gets Pager.pages p), hpages, if_neg (by omega), Act.run_bind_ok e1,
    loadArray]
  rcases hmeta : readMeta mp with fault | ⟨rootPage, nodeCount, len⟩
  · exact ⟨p₁, rfl⟩
  · rw [Act.run_bind_ok (Act.run_lift (.ok (rootPage, nodeCount, len)) p₁), Res.ok_bind]
    dsimp only
    by_cases hcond : rootPage = 0 ∨ nodeCount = 0 ∨ pgs.length + 1 ≠ nodeCount + 1
    · rw [if_pos hcond, if_pos hcond]
      exact ⟨p₁, rfl⟩
    · obtain rfl : nodeCount = pgs.length := by omega
      rw [if_neg hcond, if_neg hcond]
      obtain ⟨p₂, e2⟩ := readNodes_rep pgs.length (show Pager.Rep base p₁ ([mp] ++ pgs) from hr₁) (hp₁.trans hp)
      rw [List.length_singleton] at e2
      rw [Act.run_bind, e2]
      rcases pgs.mapM fun page => decodeNode page pgs.length with fault | nodes
      · exact ⟨p₂, rfl⟩
      · rcases hroot : pageToIndex rootPage pgs.length with fault | root
        · exact ⟨p₂, by rw [Res.ok_bind]; rfl⟩
        · exact ⟨p₂, rfl⟩

/-- The node pages of a tree are read as its nodes. -/
theorem mapM_decodeNode {count : ℕ} {nodes : List Node} {pgs : List Page} (hm : nodes.mapM nodePage = .ok pgs)
    (hw : ∀ n ∈ nodes, Writable count n) : (pgs.mapM fun page => decodeNode page count) = .ok nodes := by
  induction nodes generalizing pgs with
  | nil =>
    cases hm
    rfl
  | cons n nodes ih =>
    rw [List.mapM_cons, Res.bind_eq_ok] at hm
    obtain ⟨pg, hpg, hm⟩ := hm
    obtain ⟨pgs', hm', heq⟩ := Res.bind_eq_ok.1 hm
    cases heq
    rw [List.mapM_cons, decodeNode_nodePage (hw n (by simp)) hpg, ih hm' fun m hm => hw m (by simp [hm])]
    rfl

/-- **Round trip**: the pages of a tree are loaded as that tree. -/
theorem loadArray_saved {es : List (String × String)} {mp : Page} {pgs : List Page}
    (ht : t.Represents es) (hmp : t.metaPage = .ok mp) (hm : t.nodes.mapM nodePage = .ok pgs)
    (hsize : (pgs.length + 1) * PAGE_SIZE < 2 ^ 63) : loadArray checkCount mp pgs = .ok t := by
  obtain ⟨h, hw, hent⟩ := ht.whole
  have hlen : pgs.length = t.nodes.length := Res.length_of_mapM hm
  have hbound : t.nodes.length + 1 < 2 ^ 51 := by
    rw [hlen, show (2 : ℕ) ^ 63 = 2 ^ 51 * PAGE_SIZE by norm_num [PAGE_SIZE]] at hsize
    exact Nat.lt_of_mul_lt_mul_right hsize
  have hroot : t.root < t.nodes.length := hw.sub.lt_length t.root mem_idsAt_self
  have hes : t.len ≤ 15 * t.nodes.length := by
    have h1 := length_entriesAt_le hw.sub
    rw [hent, hw.ids.length_eq, List.length_range, ← ht.len] at h1
    exact h1
  have hwr : ∀ n ∈ t.nodes, Writable t.nodes.length n := fun n hn => writable_of_mem ht hn (by omega)
  have hmeta := readMeta_metaPage hmp (by omega) (by omega) (by omega)
  have hcond : ¬ (t.root + 1 = 0 ∨ t.nodes.length = 0 ∨ pgs.length + 1 ≠ t.nodes.length + 1) := by omega
  have hcount : checkCount t = .ok t := by
    rw [checkCount, reservePairs, if_pos (by omega), Res.ok_bind, entries_spec ht, Res.ok_bind,
      if_neg (by rw [← ht.len]; simp), Res.pure_eq]
  rw [loadArray, hmeta, Res.ok_bind]
  dsimp only
  rw [if_neg hcond, mapM_decodeNode hm hwr, Res.ok_bind, pageToIndex_of_lt hroot, Res.ok_bind]
  exact hcount

theorem length_pages (arr : List Page) : (arr.flatMap Subtype.val).length = arr.length * PAGE_SIZE := by
  induction arr with
  | nil => simp
  | cons a arr ih =>
    rw [List.flatMap_cons, List.length_append, ih, a.2, List.length_cons, Nat.succ_mul, Nat.add_comm]

/-- Where a page stands in a file. -/
theorem at_pages {i : ℕ} {a : Page} (ha : arr[i]? = some a) : At (arr.flatMap Subtype.val) (i * PAGE_SIZE) a.1 := by
  obtain ⟨l₁, l₂, hl, rfl⟩ : ∃ l₁ l₂, arr = l₁ ++ a :: l₂ ∧ l₁.length = i := by
    have hi := (List.getElem?_eq_some_iff.1 ha).1
    refine ⟨arr.take i, arr.drop (i + 1), ?_, by rw [List.length_take]; omega⟩
    rw [← (List.getElem?_eq_some_iff.1 ha).2, List.getElem_cons_drop, List.take_append_drop]
  rw [hl, List.flatMap_append, List.flatMap_cons, ← length_pages]
  exact slice_append_right rfl

/-- **Round trip**: the file of a successful save is loaded as the tree that was saved. -/
theorem loadExact_saved {es : List (String × String)} {mp : Page} {pgs : List Page}
    (ht : t.Represents es) (hmp : t.metaPage = .ok mp) (hm : t.nodes.mapM nodePage = .ok pgs)
    (hsize : (pgs.length + 1) * PAGE_SIZE < 2 ^ 63) :
    (loadExact ((mp :: pgs).flatMap Subtype.val)).2 = .ok t := by
  have hP : 0 < PAGE_SIZE := by decide
  have hopen : Pager.openInner ((mp :: pgs).flatMap Subtype.val) 64 =
      .ok { file := (mp :: pgs).flatMap Subtype.val, capacity := 64, pages := (mp :: pgs).length } := by
    rw [Pager.openInner, if_neg (by decide), length_pages, Nat.mul_mod_left, Nat.mul_div_cancel _ hP]
    rfl
  have hr : Pager.Rep ((mp :: pgs).flatMap Subtype.val)
      { file := (mp :: pgs).flatMap Subtype.val, capacity := 64, pages := (mp :: pgs).length }
      (mp :: pgs) :=
    ⟨by norm_num, by simp, fun _ _ h => by simp at h, fun _ _ ha => Or.inr (at_pages ha), rfl⟩
  obtain ⟨p', hrun⟩ := loadPages_rep checkCount hr rfl
  simp only [loadExact, loadExactWith, hopen, hrun, loadArray_saved ht hmp hm hsize]

end Load

/-! ## Loading leaves the file alone -/

section Quiet
variable {p : Pager}

/-- Nothing in the cache has to be written, and nothing has been. -/
structure Quiet (pages : ℕ) (p : Pager) : Prop where
  clean : ∀ e ∈ p.cache, e.2.dirty = false
  pages : p.pages = pages
  issued : p.issued = []

variable {pages : ℕ}

theorem Quiet.flushOne (hq : Quiet pages p) (id : ℕ) : p.flushOne id = p := by
  unfold Pager.flushOne
  split
  · rfl
  · rename_i page hpage
    have : page.dirty = false := hq.clean _ (mem_of_lookup hpage)
    simp [this]

theorem evictIfNeeded_quiet : Act.Preserves (Quiet pages) Pager.evictIfNeeded := by
  refine Act.preserves_bind (Act.preserves_gets _) fun p₀ =>
    Act.preserves_ite (Act.preserves_pure _) ?_
  split
  · exact Act.preserves_lift _
  · refine Act.preserves_modify fun p hq => ?_
    rw [hq.flushOne]
    exact ⟨fun e he => hq.clean e (List.mem_of_mem_filter he), hq.pages, hq.issued⟩

theorem ensureLoaded_quiet (id : ℕ) : Act.Preserves (Quiet pages) (Pager.ensureLoaded id) := by
  refine Act.preserves_bind (Act.preserves_gets _) fun p₀ =>
    Act.preserves_ite (Act.preserves_fail _ _) (Act.preserves_ite (Act.preserves_pure _) ?_)
  refine Act.preserves_bind evictIfNeeded_quiet fun _ =>
    Act.preserves_bind (Act.preserves_gets _) fun r =>
    Act.preserves_bind (Act.preserves_lift _) fun bytes => Act.preserves_modify fun p hq => ?_
  refine ⟨fun e he => ?_, hq.pages, hq.issued⟩
  rcases List.mem_cons.1 he with rfl | he
  · rfl
  · exact hq.clean e (List.mem_of_mem_filter he)

theorem read_quiet (id : ℕ) : Act.Preserves (Quiet pages) (Pager.read id) := by
  refine Act.preserves_bind (ensureLoaded_quiet id) fun _ =>
    Act.preserves_gets_bind fun p hq => ?_
  rcases hl : p.cache.lookup id with _ | page
  · exact hq
  · have hclean : page.dirty = false := hq.clean _ (mem_of_lookup hl)
    refine ⟨fun e he => ?_, hq.pages, hq.issued⟩
    obtain ⟨e', he', rfl⟩ := List.mem_map.1 he
    split_ifs
    · exact hclean
    · exact hq.clean e' he'

theorem readNodes_quiet (count : ℕ) : ∀ n id, Act.Preserves (Quiet pages) (readNodes count n id)
  | 0, _ => Act.preserves_pure _
  | n + 1, id => Act.preserves_bind (read_quiet id) fun _ =>
    Act.preserves_bind (Act.preserves_lift _) fun _ =>
    Act.preserves_bind (readNodes_quiet count n (id + 1)) fun _ => Act.preserves_pure _

theorem loadPages_quiet (check : BTreeIndex → Res BTreeIndex) :
    Act.Preserves (Quiet pages) (loadPagesWith check) := by
  refine Act.preserves_bind (Act.preserves_gets _) fun _ =>
    Act.preserves_ite (Act.preserves_pure _) ?_
  refine Act.preserves_bind (read_quiet 0) fun _ => Act.preserves_bind (Act.preserves_lift _) ?_
  rintro ⟨rootPage, nodeCount, len⟩
  refine Act.preserves_ite (Act.preserves_fail _ _) ?_
  refine Act.preserves_bind (readNodes_quiet nodeCount nodeCount 1) fun _ => ?_
  exact Act.preserves_bind (Act.preserves_lift _) fun _ => Act.preserves_lift _

/-- **Loading changes nothing**: the pager only sets the length of the file to what it is. -/
theorem loadExact_ops (file : Bytes) :
    (loadExact file).1 = [] ∨ (loadExact file).1 = [.setLen file.length, .sync] := by
  unfold loadExact loadExactWith Pager.openInner
  rw [if_neg (by decide)]
  split_ifs with hmod
  · exact Or.inl rfl
  · have hq := loadPages_quiet checkCount { file := file, capacity := 64, pages := file.length / PAGE_SIZE }
      ⟨fun e he => by simp at he, rfl, rfl⟩
    revert hq
    simp only
    rcases (loadPagesWith checkCount).run { file := file, capacity := 64, pages := file.length / PAGE_SIZE }
      with ⟨r, p'⟩
    intro hq
    have hdirty : p'.cache.filter (fun e => e.2.dirty) = [] :=
      List.filter_eq_nil_iff.2 fun e he => by simp [hq.clean e he]
    have hsize : p'.pages * PAGE_SIZE = file.length := by
      rw [show p'.pages = file.length / PAGE_SIZE from hq.pages]
      exact Nat.div_mul_cancel (Nat.dvd_of_mod_eq_zero (by simpa using hmod))
    have hiss : p'.issued = [] := hq.issued
    simp only [Pager.flush, Act.run_bind, Act.run_modify, Act.run_gets, hdirty, List.map_nil,
      List.foldl_nil, hsize]
    split_ifs
    · exact Or.inr (by simp [hiss])
    · exact Or.inl hiss

end Quiet

/-! ## The files of a save -/

section Files
variable {d : Disk FileName} {m : List (String × String)}

theorem runOps_saveTemp_other {t : BTreeIndex} {n : FileName} (hn : n ≠ .tmp) (k : ℕ) :
    d.runOps (t.saveTemp.1.take k) n = d n := by
  obtain ⟨fops, hops⟩ := saveTemp_ops t
  rw [hops]
  have h2 : ∀ e : Disk FileName, ∀ l : List FileOp, e.runOps (l.map (DiskOp.file .tmp)) n = e n :=
    fun e l => Disk.runOps_file_other e l hn
  rcases k with _ | _ | k
  · rfl
  · exact Disk.set_other d _ hn
  · simp only [List.cons_append, List.nil_append, List.take_succ_cons, Disk.runOps_cons]
    rw [← List.map_take, h2, DiskOp.run, Disk.set_other _ _ hn, DiskOp.run, Disk.set_other _ _ hn]

theorem runOps_saveTemp_done {t : BTreeIndex} {n : FileName} (hn : n ≠ .tmp) :
    d.runOps t.saveTemp.1 n = d n := by
  have hother := runOps_saveTemp_other (d := d) (t := t) hn t.saveTemp.1.length
  rwa [List.take_length] at hother

/-- **A save that succeeds leaves a snapshot** in the temporary file, which is loaded as the tree. -/
theorem runOps_saveTemp_tmp {t : BTreeIndex} (ht : t.Represents m) (h : t.saveTemp.2 = .ok ()) :
    ∃ file, d.runOps t.saveTemp.1 .tmp = some (File.settled file) ∧
      (loadExact file).2 = .ok t := by
  obtain ⟨fops, mp, pgs, hops, hmp, hm, hsize, hfold⟩ :=
    saveTemp_ok (show t.saveTemp = (t.saveTemp.1, .ok ()) by rw [← h])
  refine ⟨_, ?_, loadExact_saved ht hmp hm hsize⟩
  rw [hops, Disk.runOps_append, Disk.runOps_file_self]
  have hempty : d.runOps [.remove .tmp, .truncate .tmp] .tmp = some (File.settled []) := by
    simp [DiskOp.run, FileOp.run, File.settled, setLen]
  rw [hempty, Option.map_some, hfold]

/-- **A successful save leaves the pages under the name of the snapshot.** -/
theorem runOps_save_pages {t : BTreeIndex} {ops : List (DiskOp FileName)} (ht : t.Represents m)
    (h : t.save d = (ops, .ok ())) :
    ∃ file, d.runOps ops .pages = some (File.settled file) ∧ (loadExact file).2 = .ok t := by
  obtain ⟨hops, hok⟩ : ops = t.saveTemp.1 ++ publishSnapshot (d.runOps t.saveTemp.1 .pages).isSome ++ [.syncDir] ∧
      t.saveTemp.2 = .ok () := by
    rcases hsave : t.saveTemp with ⟨tops, e | u⟩
    · rw [save, hsave] at h
      cases h
    · rw [save, hsave] at h
      cases h
      exact ⟨rfl, rfl⟩
  obtain ⟨file, htmp, hload⟩ := runOps_saveTemp_tmp (d := d) ht hok
  refine ⟨file, ?_, hload⟩
  rw [hops, Disk.runOps_append, Disk.runOps_append]
  rcases hp : d.runOps t.saveTemp.1 .pages with _ | f
  · simp [publishSnapshot, DiskOp.run, Disk.set, htmp]
  · simp [publishSnapshot, DiskOp.run, Disk.set, htmp, hp]

end Files

end BTreeIndex

end NutDb
