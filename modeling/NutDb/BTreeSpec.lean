/-
  The operations of the B-tree index: insertion, deletion, lookup and traversal
  do on the sorted association list of its entries what their names say, and
  none of them panics.

  `Represents t es` is the invariant of the whole index: its root is a
  well-formed subtree that uses every node of the arena exactly once, and its
  content is the sorted list `es`.
-/
import NutDb.BTreeInv

namespace NutDb

open Lib

namespace BTree

/-! ## Changing one node -/

section Update
variable {nodes : List Node} {h id : ℕ} {n n' : Node}

/-- A node whose entries change and whose children stay. -/
theorem Grown.update (hs : Sub nodes h id) (hnd : (idsAt nodes h id).Nodup)
    (hn : nodes[id]? = some n) (hok : n'.Ok) (hch : n'.children = n.children)
    (hle : n.keys.length ≤ n'.keys.length) (heq : h ≠ 0 → n'.keys.length = n.keys.length) :
    Grown nodes (nodes.set id n') h id (n'.content nodes h) := by
  have hlt : id < nodes.length := (List.getElem?_eq_some_iff.1 hn).1
  have hn' : (nodes.set id n')[id]? = some n' := List.getElem?_set_self hlt
  have hframe : ∀ j, j ≠ id → (nodes.set id n')[j]? = nodes[j]? :=
    fun j hj => List.getElem?_set_ne (Ne.symm hj)
  have hcount : keyCount nodes id ≤ keyCount (nodes.set id n') id := by
    rw [keyCount_eq hn, keyCount_eq hn']; exact hle
  cases h with
  | zero =>
    refine ⟨by simp, ⟨n', hn', hok, hch.trans (hs.leaf hn).2⟩, entriesAt_zero hn', by simp [idsAt],
      fun j _ hne => hframe j ?_, hcount⟩
    rintro rfl; exact hne mem_idsAt_self
  | succ h =>
    obtain ⟨-, hlen, hc⟩ := hs.inner hn
    rw [idsAt_succ hn, List.nodup_cons] at hnd
    have hsame : ∀ g ∈ n.children, Sub (nodes.set id n') h g ∧
        entriesAt (nodes.set id n') h g = entriesAt nodes h g ∧
        idsAt (nodes.set id n') h g = idsAt nodes h g ∧
        keyCount (nodes.set id n') g = keyCount nodes g := by
      intro g hg
      refine (hc g hg).1.frame fun j hj => hframe j ?_
      rintro rfl; exact hnd.1 (List.mem_flatMap.2 ⟨g, hg, hj⟩)
    refine ⟨by simp, ⟨n', hn', hok, ?_, fun g hg => ?_⟩, ?_, ?_, fun j _ hne => hframe j ?_, hcount⟩
    · rw [hch, hlen, heq (by omega)]
    · rw [hch] at hg
      exact ⟨(hsame g hg).1, (hsame g hg).2.2.2 ▸ (hc g hg).2⟩
    · rw [entriesAt_succ hn', Node.content, hch,
        List.map_congr_left fun g hg => (hsame g hg).2.1]
    · rw [idsAt_succ hn', idsAt_succ hn, hch,
        List.flatMap_congr fun g hg => (hsame g hg).2.2.1]
      simp
    · rintro rfl; exact hne mem_idsAt_self

variable {ks₁ ks₂ vs₁ vs₂ : List String} {key value v : String}

/-- Replacing the value of a key of the node. -/
theorem content_replace (hs : Sub nodes h id) (hn : nodes[id]? = some n)
    (hsorted : SortedKeys (entriesAt nodes h id)) (hk : n.keys = ks₁ ++ key :: ks₂)
    (hv : n.values = vs₁ ++ v :: vs₂) (hl : vs₁.length = ks₁.length) :
    ({ n with values := vs₁ ++ value :: vs₂ } : Node).content nodes h =
      insertEntry key value (entriesAt nodes h id) := by
  have hkv := Node.kvs_append hk hv hl
  have hkv' := Node.kvs_append (n := { n with values := vs₁ ++ value :: vs₂ }) hk rfl hl
  rw [entriesAt_eq hn] at hsorted ⊢
  rw [List.zip_cons_cons] at hkv hkv'
  cases h with
  | zero =>
    simp only [Node.content, hkv] at hsorted
    simp only [Node.content, hkv, hkv']
    exact (insertEntry_replace fun e he => (sortedKeys_append.1 hsorted).2.2 e he (key, v) (by simp)).symm
  | succ h =>
    obtain ⟨hok, hlen, -⟩ := hs.inner hn
    have hz : (ks₁.zip vs₁).length = ks₁.length := by rw [List.length_zip]; omega
    rw [hk, List.length_append, List.length_cons] at hlen
    have hcs : n.children.map (entriesAt nodes h) =
        (n.children.map (entriesAt nodes h)).take (ks₁.length + 1) ++
          (n.children.map (entriesAt nodes h)).drop (ks₁.length + 1) :=
      (List.take_append_drop _ _).symm
    have htl : ((n.children.map (entriesAt nodes h)).take (ks₁.length + 1)).length =
        (ks₁.zip vs₁).length + 1 := by
      simp only [List.length_take, List.length_map, hz, hlen]; omega
    simp only [Node.content] at hsorted ⊢
    rw [hkv, hcs, weave_median htl] at hsorted
    rw [hkv, hkv', hcs, weave_median htl, weave_median htl]
    exact (insertEntry_replace fun e he => (sortedKeys_append.1 hsorted).2.2 e he (key, v) (by simp)).symm

/-- Inserting a key into a leaf. -/
theorem content_insert (hn : nodes[id]? = some n) (hk : n.keys = ks₁ ++ ks₂)
    (hv : n.values = vs₁ ++ vs₂) (hl : vs₁.length = ks₁.length) (h₁ : ∀ x ∈ ks₁, x < key)
    (h₂ : ∀ x ∈ ks₂, key < x) :
    ({ n with keys := ks₁ ++ key :: ks₂, values := vs₁ ++ value :: vs₂ } : Node).content nodes 0 =
      insertEntry key value (entriesAt nodes 0 id) := by
  rw [entriesAt_zero hn, Node.kvs_append hk hv hl, Node.content,
    Node.kvs_append (n := { n with keys := ks₁ ++ key :: ks₂, values := vs₁ ++ value :: vs₂ }) rfl rfl hl,
    List.zip_cons_cons]
  exact (insertEntry_between (fun e he => h₁ _ (mem_zip_left he))
    fun e he => h₂ _ (mem_zip_left he)).symm

end Update

/-! ## `replace` -/

section Replace
variable {nodes : List Node} {h id depth : ℕ} {n : Node} {key value v : String}
  {ks₁ ks₂ vs₁ vs₂ : List String}

theorem replace_found (hs : Sub nodes h id) (hnd : (idsAt nodes h id).Nodup)
    (hsorted : SortedKeys (entriesAt nodes h id)) (hn : nodes[id]? = some n)
    (hk : n.keys = ks₁ ++ key :: ks₂) (hv : n.values = vs₁ ++ v :: vs₂)
    (hl : vs₁.length = ks₁.length) (hb : binarySearch n.keys key = .ok ks₁.length) :
    ∃ nodes', replace nodes key value (depth + 1) id = .ok (true, nodes') ∧
      nodes'.length = nodes.length ∧
      Grown nodes nodes' h id (insertEntry key value (entriesAt nodes h id)) := by
  obtain ⟨n', hn', hok⟩ := hs.node
  rw [hn] at hn'; cases hn'
  have hlt : id < nodes.length := (List.getElem?_eq_some_iff.1 hn).1
  have hset : Res.setAt n.values ks₁.length value = .ok (vs₁ ++ value :: vs₂) := by
    rw [Res.setAt_of_lt (by rw [hv]; simp; omega), hv, ← hl]
    simp
  refine ⟨nodes.set id { n with values := vs₁ ++ value :: vs₂ }, ?_, by simp, ?_⟩
  · simp only [replace, Res.get_of_getElem? hn, Res.ok_bind, hb, hset, Res.setAt_of_lt hlt, Res.pure_eq]
  · rw [← content_replace hs hn hsorted hk hv hl]
    refine Grown.update hs hnd hn ⟨?_, hok.2⟩ rfl le_rfl fun _ => rfl
    rw [← hok.1, hv]; simp

/-- **`replace` overwrites the value of a key that is in the subtree**, and changes nothing if it
    is not. -/
theorem replace_spec (key value : String) (hs : Sub nodes h id) (hnd : (idsAt nodes h id).Nodup)
    (hsorted : SortedKeys (entriesAt nodes h id)) (hd : h < depth) :
    (∃ v nodes', (entriesAt nodes h id).lookup key = some v ∧
      replace nodes key value depth id = .ok (true, nodes') ∧ nodes'.length = nodes.length ∧
      Grown nodes nodes' h id (insertEntry key value (entriesAt nodes h id))) ∨
    ((entriesAt nodes h id).lookup key = none ∧
      replace nodes key value depth id = .ok (false, nodes)) := by
  induction h generalizing id depth with
  | zero =>
    obtain ⟨depth, rfl⟩ : ∃ d, depth = d + 1 := ⟨depth - 1, by omega⟩
    obtain ⟨n, hn, -⟩ := hs.node
    rcases hs.search hn hsorted key with
      ⟨ks₁, ks₂, vs₁, vs₂, v, hk, hv, hl, hb⟩ | ⟨ks₁, ks₂, vs₁, vs₂, hk, hv, hl, hb, h₁, h₂⟩
    · exact Or.inl ⟨v, (replace_found hs hnd hsorted hn hk hv hl hb).imp fun nodes' h' =>
        ⟨hs.lookup_found hn hsorted hk hv hl, h'⟩⟩
    · refine Or.inr ⟨lookup_leaf hn hk hv hl h₁ h₂, ?_⟩
      simp only [replace, Res.get_of_getElem? hn, Res.ok_bind, hb, hs.is_leaf hn, if_true, Res.pure_eq]
  | succ h ih =>
    obtain ⟨depth, rfl⟩ : ∃ d, depth = d + 1 := ⟨depth - 1, by omega⟩
    obtain ⟨n, hn, -⟩ := hs.node
    rcases hs.search hn hsorted key with
      ⟨ks₁, ks₂, vs₁, vs₂, v, hk, hv, hl, hb⟩ | ⟨ks₁, ks₂, vs₁, vs₂, hk, hv, hl, hb, h₁, h₂⟩
    · exact Or.inl ⟨v, (replace_found hs hnd hsorted hn hk hv hl hb).imp fun nodes' h' =>
        ⟨hs.lookup_found hn hsorted hk hv hl, h'⟩⟩
    · obtain ⟨c, F, B, hget, hsc, hndc, hsortc, hent, hF, hB, hstep⟩ :=
        hs.descend hnd hsorted hn hk h₁ h₂
      have hrec : replace nodes key value (depth + 1) id = replace nodes key value depth c := by
        simp only [replace, Res.get_of_getElem? hn, Res.ok_bind, hb, hs.not_leaf hn, hget]
        rfl
      rw [hrec, hent, lookup_between hF hB]
      rcases ih hsc hndc hsortc (show h < depth by omega) with ⟨v, nodes', h1, h2, h3, h4⟩ | h'
      · refine Or.inl ⟨v, nodes', h1, h2, h3, ?_⟩
        rw [insertEntry_append_right hB, insertEntry_append_left hF]
        exact hstep _ _ h4
      · exact Or.inr h'

end Replace

/-! ## `insert_non_full` -/

section Insert
variable {nodes : List Node} {h id depth : ℕ} {key value : String}

/-- The child that `insert_non_full` goes on with has room, and getting there keeps the content. -/
theorem splitIfFull_spec {n child : Node} {c : ℕ} {ks₁ ks₂ : List String}
    (hs : Sub nodes (h + 1) id) (hnd : (idsAt nodes (h + 1) id).Nodup)
    (hsorted : SortedKeys (entriesAt nodes (h + 1) id))
    (hnew : (entriesAt nodes (h + 1) id).lookup key = none) (hn : nodes[id]? = some n)
    (hroom : n.keys.length < MAX_KEYS) (hk : n.keys = ks₁ ++ ks₂) (h₁ : ∀ x ∈ ks₁, x < key)
    (h₂ : ∀ x ∈ ks₂, key < x) (hget : Res.get n.children ks₁.length = .ok c)
    (hchild : nodes[c]? = some child) :
    ∃ nodes' n' ks₁' ks₂', splitIfFull key nodes id ks₁.length child = .ok (nodes', ks₁'.length) ∧
      Grown nodes nodes' (h + 1) id (entriesAt nodes (h + 1) id) ∧ nodes'[id]? = some n' ∧
      n'.keys = ks₁' ++ ks₂' ∧ (∀ x ∈ ks₁', x < key) ∧ (∀ x ∈ ks₂', key < x) ∧
      ∀ c', Res.get n'.children ks₁'.length = .ok c' → keyCount nodes' c' < MAX_KEYS := by
  obtain ⟨hok, hlen, hch⟩ := hs.inner hn
  by_cases hfull : child.keys.length = MAX_KEYS
  · obtain ⟨vs₁, vs₂, hv, hl, -⟩ := hok.split_values hk
    rw [Res.get_eq_ok] at hget
    have hclt : ks₁.length < n.children.length := (List.getElem?_eq_some_iff.1 hget).1
    obtain ⟨as, bs, hcs, hal⟩ : ∃ as bs, n.children = as ++ c :: bs ∧ as.length = ks₁.length := by
      refine ⟨n.children.take ks₁.length, n.children.drop (ks₁.length + 1), ?_, by simp; omega⟩
      rw [← (List.getElem?_eq_some_iff.1 hget).2, List.getElem_cons_drop, List.take_append_drop]
    obtain ⟨nodes', k, v, hsplit, hg, hp, hc1, hc2⟩ := splitChild_spec hs hnd hn hcs hk hv hal hl hroom
      ((keyCount_eq hchild).trans hfull)
    rw [hal] at hsplit
    have hk7 : MIN_DEGREE - 1 < MAX_KEYS := by decide
    -- the median is in the tree, the key is not
    have hlook : (entriesAt nodes' (h + 1) id).lookup k = some v :=
      hg.sub.lookup_found hp (by rw [hg.entries]; exact hsorted) rfl rfl hl
    rw [hg.entries] at hlook
    have hmed : Res.get (ks₁ ++ k :: ks₂) ks₁.length = .ok k := Res.get_append_cons _ _ _
    have hne : key ≠ k := by rintro rfl; rw [hnew] at hlook; cases hlook
    rcases lt_or_gt_of_ne hne with hlt | hgt
    · refine ⟨nodes', _, ks₁, k :: ks₂, ?_, hg, hp, rfl, h₁, ?_, fun c' hc' => ?_⟩
      · simp only [splitIfFull, if_pos hfull, hsplit, Res.ok_bind, Res.get_of_getElem? hp, hmed,
          if_neg hlt.le.not_gt, if_neg hne, Res.pure_eq]
      · intro x hx
        rcases List.mem_cons.1 hx with rfl | hx
        · exact hlt
        · exact h₂ x hx
      · rw [← hal, Res.get_append_cons] at hc'
        cases hc'
        omega
    · refine ⟨nodes', _, ks₁ ++ [k], ks₂, ?_, hg, hp, by simp, ?_, h₂, fun c' hc' => ?_⟩
      · simp only [splitIfFull, if_pos hfull, hsplit, Res.ok_bind, Res.get_of_getElem? hp, hmed,
          if_pos hgt, Res.pure_eq, List.length_append, List.length_singleton]
      · intro x hx
        rcases List.mem_append.1 hx with hx | hx
        · exact h₁ x hx
        · rw [List.mem_singleton.1 hx]; exact hgt
      · have hget' := Res.get_append_cons (as ++ [c]) bs nodes.length
        simp only [List.append_assoc, List.singleton_append, List.length_append, hal,
          List.length_singleton] at hget' hc'
        rw [hget'] at hc'
        cases hc'
        omega
  · refine ⟨nodes, n, ks₁, ks₂, if_neg hfull, Grown.refl hs, hn, hk, h₁, h₂, fun c' hc' => ?_⟩
    rw [hget] at hc'; cases hc'
    obtain ⟨m, hm, hmok⟩ := (hch c (List.mem_of_getElem? (Res.get_eq_ok.1 hget))).1.node
    rw [hchild] at hm; cases hm
    rw [keyCount_eq hchild]
    exact lt_of_le_of_ne hmok.2 hfull

/-- **`insert_non_full` inserts a new key** below a node with room. -/
theorem insertNonFull_spec (key value : String) (hs : Sub nodes h id) (hnd : (idsAt nodes h id).Nodup)
    (hsorted : SortedKeys (entriesAt nodes h id))
    (hnew : (entriesAt nodes h id).lookup key = none) (hroom : keyCount nodes id < MAX_KEYS)
    (hd : h < depth) :
    ∃ nodes', insertNonFull key value depth nodes id = .ok nodes' ∧
      Grown nodes nodes' h id (insertEntry key value (entriesAt nodes h id)) := by
  induction h generalizing id depth nodes with
  | zero =>
    obtain ⟨depth, rfl⟩ : ∃ d, depth = d + 1 := ⟨depth - 1, by omega⟩
    obtain ⟨n, hn, hok⟩ := hs.node
    rw [keyCount_eq hn] at hroom
    have hlt : id < nodes.length := (List.getElem?_eq_some_iff.1 hn).1
    rcases hs.search hn hsorted key with
      ⟨ks₁, ks₂, vs₁, vs₂, v, hk, hv, hl, hb⟩ | ⟨ks₁, ks₂, vs₁, vs₂, hk, hv, hl, hb, h₁, h₂⟩
    · rw [hs.lookup_found hn hsorted hk hv hl] at hnew; cases hnew
    · refine ⟨nodes.set id { n with keys := ks₁ ++ key :: ks₂, values := vs₁ ++ value :: vs₂ }, ?_, ?_⟩
      · have h1 : Res.insertAt n.keys ks₁.length key = .ok (ks₁ ++ key :: ks₂) := by
          rw [hk, Res.insertAt_length]
        have h2 : Res.insertAt n.values ks₁.length value = .ok (vs₁ ++ value :: vs₂) := by
          rw [hv, ← hl, Res.insertAt_length]
        simp only [insertNonFull, Res.get_of_getElem? hn, Res.ok_bind, hb, hs.is_leaf hn, if_true,
          h1, h2, Res.setAt_of_lt hlt]
      · rw [← content_insert hn hk hv hl h₁ h₂]
        have hlen := hok.1
        rw [hk, hv] at hlen
        rw [hk] at hroom
        simp only [List.length_append] at hlen hroom
        refine Grown.update hs hnd hn ?_ rfl ?_ (by simp)
        · simp only [Node.Ok, List.length_append, List.length_cons]; omega
        · rw [hk]; simp
  | succ h ih =>
    obtain ⟨depth, rfl⟩ : ∃ d, depth = d + 1 := ⟨depth - 1, by omega⟩
    obtain ⟨n, hn, hok⟩ := hs.node
    rw [keyCount_eq hn] at hroom
    rcases hs.search hn hsorted key with
      ⟨ks₁, ks₂, vs₁, vs₂, v, hk, hv, hl, hb⟩ | ⟨ks₁, ks₂, vs₁, vs₂, hk, hv, hl, hb, h₁, h₂⟩
    · rw [hs.lookup_found hn hsorted hk hv hl] at hnew; cases hnew
    · obtain ⟨c, -, -, hget, hsc, -⟩ := hs.descend hnd hsorted hn hk h₁ h₂
      obtain ⟨child, hchild, -⟩ := hsc.node
      obtain ⟨nodes₁, n₁, ks₁', ks₂', hsplit, hg₁, hn₁, hk₁, h₁', h₂', hroom₁⟩ :=
        splitIfFull_spec hs hnd hsorted hnew hn hroom hk h₁ h₂ hget hchild
      -- descend in the arena after the split
      rw [← hg₁.entries] at hsorted hnew
      obtain ⟨c₁, F, B, hget₁, hsc₁, hndc, hsortc, hent, hF, hB, hstep⟩ :=
        hg₁.sub.descend (hg₁.nodup hs hnd) hsorted hn₁ hk₁ h₁' h₂'
      rw [hent, lookup_between hF hB] at hnew
      obtain ⟨nodes₂, hins, hg₂⟩ := ih hsc₁ hndc hsortc hnew (hroom₁ c₁ hget₁)
        (show h < depth by omega)
      refine ⟨nodes₂, ?_, ?_⟩
      · simp only [insertNonFull, Res.get_of_getElem? hn, Res.ok_bind, hb, hs.not_leaf hn, hget,
          Res.get_of_getElem? hchild, hsplit, Res.get_of_getElem? hn₁, hget₁, hins]
        rfl
      · rw [← hg₁.entries, hent, insertEntry_append_right hB, insertEntry_append_left hF]
        exact hg₁.trans (hstep _ _ hg₂)

end Insert

/-! ## Traversal -/

section Collect
variable {α : Type} {room : List α → Bool} {item : Node → ℕ → Res α} {g : String × String → α}
  {nodes : List Node}

/-- The walk of a leaf. -/
def walkLeaf (room : List α → Bool) (item : Node → ℕ → Res α) (n : Node) (out : List α) : Res (List α) :=
  (List.range n.keys.length).foldlM (fun out index => do
    let x ← item n index
    pushIn room out x) out

/-- A turn of the walk of an inner node: a child, and the key after it. -/
def walkTurn (room : List α → Bool) (item : Node → ℕ → Res α) (walk : ℕ → List α → Res (List α)) (n : Node)
    (out : List α) (index : ℕ) : Res (List α) := do
  let child ← Res.get n.children index
  let out ← walk child out
  let x ← item n index
  pushIn room out x

/-- The walk of an inner node, from those of its children. -/
def walkInner (room : List α → Bool) (item : Node → ℕ → Res α) (walk : ℕ → List α → Res (List α)) (n : Node)
    (out : List α) : Res (List α) := do
  let out ← (List.range n.keys.length).foldlM (walkTurn room item walk n) out
  let child ← Res.get n.children n.keys.length
  walk child out

theorem collectIn_leaf {id depth : ℕ} {n : Node} {out : List α} (hn : nodes[id]? = some n)
    (hleaf : n.leaf = true) : collectIn room item nodes (depth + 1) id out = walkLeaf room item n out := by
  simp only [collectIn, Res.get_of_getElem? hn, Res.ok_bind, hleaf, if_true, Res.pure_eq]
  exact bind_pure _

theorem collectIn_inner {id depth : ℕ} {n : Node} {out : List α} (hn : nodes[id]? = some n)
    (hleaf : n.leaf = false) : collectIn room item nodes (depth + 1) id out =
      walkInner room item (collectIn room item nodes depth) n out := by
  simp only [collectIn, Res.get_of_getElem? hn, Res.ok_bind, hleaf]
  rfl

/-- The walk of a leaf appends its items. -/
theorem walkLeaf_appends {n : Node} (hroom : Closed room) (hvalues : n.values.length = n.keys.length)
    (hitem : ∀ i e, n.kvs[i]? = some e → item n i = .ok (g e)) :
    Appends room (walkLeaf room item n) (n.kvs.map g) := by
  have hlen : n.kvs.length = n.keys.length := by simp [Node.kvs, hvalues]
  have hloop : ∀ k ≤ n.keys.length, Appends room (fun out => (List.range k).foldlM (fun out index => do
      let x ← item n index
      pushIn room out x) out) ((n.kvs.take k).map g) := by
    intro k hk
    induction k with
    | zero => exact Appends.nil
    | succ k ihk =>
      have hget : n.kvs[k]? = some n.kvs[k] := List.getElem?_eq_getElem (by omega)
      have hkk : n.kvs.take (k + 1) = n.kvs.take k ++ [n.kvs[k]] := by
        rw [List.take_add_one, hget]; rfl
      rw [hkk, List.map_append]
      refine (ihk (by omega)).range_succ ?_ hroom
      simp only [hitem k _ hget, Res.ok_bind]
      exact Appends.push _
  have hall := hloop n.keys.length le_rfl
  rwa [← hlen, List.take_length, hlen] at hall

/-- The walk of an inner node appends what those of its children append, with its items between them. -/
theorem walkInner_appends {n : Node} {walk : ℕ → List α → Res (List α)}
    {content : ℕ → List (String × String)} (hroom : Closed room)
    (hvalues : n.values.length = n.keys.length) (hchildren : n.children.length = n.keys.length + 1)
    (hitem : ∀ i e, n.kvs[i]? = some e → item n i = .ok (g e))
    (hwalk : ∀ c ∈ n.children, Appends room (walk c) ((content c).map g)) :
    Appends room (walkInner room item walk n) ((weave (n.children.map content) n.kvs).map g) := by
  have hlen : n.kvs.length = n.keys.length := by simp [Node.kvs, hvalues]
  have hchild : ∀ k ≤ n.keys.length, ∃ c, n.children[k]? = some c ∧
      Res.get n.children k = .ok c ∧ Appends room (walk c) ((content c).map g) := by
    intro k hk
    have hget : n.children[k]? = some n.children[k] := List.getElem?_eq_getElem (by omega)
    exact ⟨_, hget, Res.get_of_getElem? hget, hwalk _ (List.mem_of_getElem? hget)⟩
  have hloop : ∀ k ≤ n.keys.length,
      Appends room (fun out => (List.range k).foldlM (walkTurn room item walk n) out)
        ((front ((n.children.take k).map content) (n.kvs.take k)).map g) := by
    intro k hk
    induction k with
    | zero =>
      have hnil : Appends room (fun out => .ok out) [] := Appends.nil
      simpa [front] using hnil
    | succ k ihk =>
      obtain ⟨c, hc, hget, hcol⟩ := hchild k (by omega)
      have hkv : n.kvs[k]? = some n.kvs[k] := List.getElem?_eq_getElem (by omega)
      have hck : n.children.take (k + 1) = n.children.take k ++ [c] := by
        rw [List.take_add_one, hc]; rfl
      have hkk : n.kvs.take (k + 1) = n.kvs.take k ++ [n.kvs[k]] := by
        rw [List.take_add_one, hkv]; rfl
      rw [hck, hkk, List.map_append, List.map_singleton, front_concat (by simp; omega)]
      simp only [List.map_append, List.append_assoc]
      refine (ihk (by omega)).range_succ ?_ hroom
      simp only [walkTurn, hget, hitem k _ hkv, Res.ok_bind]
      exact hcol.bind (Appends.push _) hroom
  obtain ⟨c, hc, hget, hcol⟩ := hchild n.keys.length le_rfl
  have hcs : n.children = n.children.take n.keys.length ++ c :: [] := by
    conv_lhs => rw [← List.take_length (l := n.children), hchildren, List.take_add_one, hc]
    rfl
  have hweave : weave (n.children.map content) n.kvs =
      front ((n.children.take n.keys.length).map content) n.kvs ++ content c := by
    conv_lhs => rw [hcs, List.map_append, List.map_cons, List.map_nil, ← List.append_nil n.kvs]
    rw [weave_split (by simp; omega)]
    simp [back]
  have hall := hloop n.keys.length le_rfl
  rw [← hlen, List.take_length, hlen] at hall
  rw [hweave, List.map_append]
  have hlast := hall.bind hcol hroom
  intro out hout
  rw [walkInner, hget]
  exact hlast out hout

/-- The walk pushes one item for each entry, in order. -/
theorem collectWith_appends {h id depth : ℕ}
    (hitem : ∀ n : Node, n.Ok → ∀ i e, n.kvs[i]? = some e → item n i = .ok (g e))
    (hs : Sub nodes h id) (hd : h < depth) :
    Appends (fun _ => true) (collectWith item nodes depth id) ((entriesAt nodes h id).map g) := by
  induction h generalizing id depth with
  | zero =>
    obtain ⟨depth, rfl⟩ : ∃ d, depth = d + 1 := ⟨depth - 1, by omega⟩
    obtain ⟨n, hn, hok⟩ := hs.node
    rw [entriesAt_zero hn]
    intro out hout
    rw [collectWith, collectIn_leaf hn (hs.is_leaf hn)]
    exact walkLeaf_appends closed_true hok.1 (hitem n hok) out hout
  | succ h ih =>
    obtain ⟨depth, rfl⟩ : ∃ d, depth = d + 1 := ⟨depth - 1, by omega⟩
    obtain ⟨n, hn, hok⟩ := hs.node
    obtain ⟨-, hcl, hch⟩ := hs.inner hn
    rw [entriesAt_succ hn]
    intro out hout
    rw [collectWith, collectIn_inner hn (hs.not_leaf hn)]
    exact walkInner_appends closed_true hok.1 hcl (hitem n hok) (fun c hc => ih (hch c hc).1 (by omega)) out hout

theorem collectWith_spec {h id depth : ℕ} {out : List α}
    (hitem : ∀ n : Node, n.Ok → ∀ i e, n.kvs[i]? = some e → item n i = .ok (g e))
    (hs : Sub nodes h id) (hd : h < depth) :
    collectWith item nodes depth id out = .ok (out ++ (entriesAt nodes h id).map g) :=
  (collectWith_appends hitem hs hd).eq_ok closed_true rfl

end Collect

theorem pairAt_eq {n : Node} {i : ℕ} {e : String × String} (he : n.kvs[i]? = some e) : pairAt n i = .ok e := by
  obtain ⟨h1, h2⟩ := List.getElem?_zip_eq_some.1 he
  simp [pairAt, Res.get_of_getElem? h1, Res.get_of_getElem? h2]

theorem collect_spec {nodes : List Node} {h id depth : ℕ} {out : List (String × String)}
    (hs : Sub nodes h id) (hd : h < depth) :
    collect nodes depth id out = .ok (out ++ entriesAt nodes h id) := by
  rw [collect, collectWith_spec (g := fun e => e) (fun _ _ _ _ => pairAt_eq) hs hd, List.map_id']

theorem collectKeys_spec {nodes : List Node} {h id depth : ℕ} {out : List String}
    (hs : Sub nodes h id) (hd : h < depth) :
    collectKeys nodes depth id out = .ok (out ++ (entriesAt nodes h id).map Prod.fst) := by
  refine collectWith_spec ?_ hs hd
  intro n hok i e he
  obtain ⟨h1, -⟩ := List.getElem?_zip_eq_some.1 he
  exact Res.get_of_getElem? h1

/-! ## The root -/

/-- The node `root` is the root of a tree of height `h` that uses every node of the arena exactly
    once. -/
structure Whole (nodes : List Node) (h root : ℕ) : Prop where
  sub : Sub nodes h root
  ids : (idsAt nodes h root).Perm (List.range nodes.length)
  root_nonempty : h ≠ 0 → 1 ≤ keyCount nodes root

section Whole
variable {nodes nodes' : List Node} {h root : ℕ} {es : List (String × String)}

theorem Whole.nodup (hw : Whole nodes h root) : (idsAt nodes h root).Nodup :=
  hw.ids.nodup_iff.2 List.nodup_range

theorem Whole.height_lt (hw : Whole nodes h root) : h < nodes.length + 1 := by
  have h1 := hw.sub.height_lt
  rw [hw.ids.length_eq, List.length_range] at h1
  omega

theorem range_append_range' {m n : ℕ} (h : m ≤ n) :
    List.range m ++ List.range' m (n - m) = List.range n := by
  rw [List.range_eq_range', List.range_eq_range', show n = m + (n - m) by omega]
  have := List.range'_append_1 (s := 0) (m := m) (n := n - m)
  rw [Nat.zero_add] at this
  rw [Nat.add_sub_cancel_left]
  exact this

theorem Whole.grown (hw : Whole nodes h root) (hg : Grown nodes nodes' h root es) :
    Whole nodes' h root where
  sub := hg.sub
  ids := by
    have := hg.ids.trans (hw.ids.append_right _)
    rwa [range_append_range' hg.le] at this
  root_nonempty := fun h0 => (hw.root_nonempty h0).trans hg.count

/-- **A full root gets a new root above it.** -/
theorem growRoot_spec {n : Node} (hw : Whole nodes h root) (hn : nodes[root]? = some n) :
    ∃ nodes' h' root', BTreeIndex.growRoot nodes root n = .ok (nodes', root') ∧
      Whole nodes' h' root' ∧ entriesAt nodes' h' root' = entriesAt nodes h root ∧
      keyCount nodes' root' < MAX_KEYS := by
  obtain ⟨n', hn', hok⟩ := hw.sub.node
  rw [hn] at hn'; cases hn'
  by_cases hfull : n.keys.length = MAX_KEYS
  · -- one more level: a root without keys above the old root, which is then split
    obtain ⟨top, htop⟩ : ∃ top, top = nodes ++ [({ children := [root] } : Node)] := ⟨_, rfl⟩
    have hlen : top.length = nodes.length + 1 := by simp [htop]
    have hnew : top[nodes.length]? = some { children := [root] } := by rw [htop]; simp
    obtain ⟨hsub, hent, hids, hcount⟩ := hw.sub.frame
      (show ∀ j ∈ idsAt nodes h root, top[j]? = nodes[j]? from fun j hj => by
        rw [htop, List.getElem?_append_left (hw.sub.lt_length j hj)])
    rw [keyCount_eq hn, hfull] at hcount
    have hids' : idsAt top (h + 1) nodes.length = nodes.length :: idsAt nodes h root := by
      rw [idsAt_succ hnew]; simp [hids]
    have htsub : Sub top (h + 1) nodes.length := by
      refine ⟨_, hnew, ⟨rfl, by simp⟩, rfl, fun c hc => ?_⟩
      rw [List.mem_singleton.1 hc]
      exact ⟨hsub, by rw [hcount]; decide⟩
    have htnd : (idsAt top (h + 1) nodes.length).Nodup := by
      rw [hids', List.nodup_cons]
      exact ⟨fun hm => absurd (hw.sub.lt_length _ hm) (lt_irrefl _), hw.nodup⟩
    obtain ⟨nodes', k, v, hsplit, hg, hroot, -, -⟩ := splitChild_spec htsub htnd hnew
      (List.nil_append [root]).symm (List.append_nil []).symm (List.append_nil []).symm rfl rfl
      (by simp [MAX_KEYS, MIN_DEGREE]) hcount
    have hkc : keyCount nodes' nodes.length = 1 := keyCount_eq hroot
    refine ⟨nodes', h + 1, nodes.length, ?_, ⟨hg.sub, ?_, fun _ => hkc.ge⟩, ?_, by rw [hkc]; decide⟩
    · rw [htop] at hsplit
      simp only [BTreeIndex.growRoot, if_pos hfull, List.length_append, List.length_singleton,
        Nat.add_sub_cancel]
      rw [show splitChild (nodes ++ [{ children := [root] }]) nodes.length 0 = .ok nodes' from hsplit]
      rfl
    · have h1 : (idsAt top (h + 1) nodes.length).Perm (List.range top.length) := by
        rw [hids', hlen, List.range_succ]
        exact (hw.ids.cons _).trans (List.perm_append_singleton _ _).symm
      have := hg.ids.trans (h1.append_right _)
      rwa [range_append_range' hg.le] at this
    · rw [hg.entries, entriesAt_succ hnew]
      simp [weave, Node.kvs, hent]
  · refine ⟨nodes, h, root, by rw [BTreeIndex.growRoot, if_neg hfull], hw, rfl, ?_⟩
    rw [keyCount_eq hn]
    exact lt_of_le_of_ne hok.2 hfull

end Whole

end BTree

/-! ## The index as a sorted map -/

namespace BTreeIndex
open BTree

/-- The index holds the entries `es`, in ascending order of their keys. -/
structure Represents (t : BTreeIndex) (es : List (String × String)) : Prop where
  whole : ∃ h, Whole t.nodes h t.root ∧ entriesAt t.nodes h t.root = es
  sorted : SortedKeys es
  len : t.len = es.length

section Spec
variable {t : BTreeIndex} {es : List (String × String)} {key value : String}

theorem new_represents : new.Represents [] where
  whole := ⟨0, ⟨⟨{}, rfl, ⟨rfl, by simp⟩, rfl⟩, by simp [idsAt, new], fun h => absurd rfl h⟩, rfl⟩
  sorted := List.Pairwise.nil
  len := rfl

/-- **`get`.** -/
theorem get_spec (ht : t.Represents es) : t.get key = .ok (es.lookup key) := by
  obtain ⟨h, hw, rfl⟩ := ht.whole
  exact getFrom_spec hw.sub hw.nodup ht.sorted hw.height_lt

/-- **`entries`.** -/
theorem entries_spec (ht : t.Represents es) : t.entries = .ok es := by
  obtain ⟨h, hw, rfl⟩ := ht.whole
  exact collect_spec hw.sub hw.height_lt

/-- **`keys`.** -/
theorem keys_spec (ht : t.Represents es) : t.keys = .ok (es.map Prod.fst) := by
  obtain ⟨h, hw, rfl⟩ := ht.whole
  exact collectKeys_spec hw.sub hw.height_lt

/-- **`insert` never panics** and inserts or replaces the entry. -/
theorem insert_spec (key value : String) (ht : t.Represents es) :
    ∃ t', t.insert key value = .ok t' ∧ t'.Represents (insertEntry key value es) := by
  obtain ⟨h, hw, rfl⟩ := ht.whole
  rcases replace_spec key value hw.sub hw.nodup ht.sorted hw.height_lt with
    ⟨v, nodes', hlook, hrep, hlen, hg⟩ | ⟨hlook, hrep⟩
  · refine ⟨{ t with nodes := nodes' }, ?_, ⟨h, hw.grown hg, hg.entries⟩,
      sortedKeys_insertEntry ht.sorted, ?_⟩
    · rw [insert, depth, hrep]; rfl
    · obtain ⟨w, hw'⟩ := lookup_isSome_iff.1 (Option.isSome_of_eq_some hlook)
      rw [length_insertEntry_of_mem ht.sorted hw']
      exact ht.len
  · obtain ⟨n, hn, -⟩ := hw.sub.node
    obtain ⟨nodes₁, h₁, root₁, hgrow, hw₁, hent₁, hroom⟩ := growRoot_spec hw hn
    obtain ⟨nodes₂, hins, hg⟩ := insertNonFull_spec key value hw₁.sub hw₁.nodup
      (hent₁ ▸ ht.sorted) (hent₁ ▸ hlook) hroom hw₁.height_lt
    rw [hent₁] at hg
    refine ⟨⟨nodes₂, root₁, t.len + 1⟩, ?_, ⟨h₁, hw₁.grown hg, hg.entries⟩,
      sortedKeys_insertEntry ht.sorted, ?_⟩
    · simp only [insert, depth, hrep, Res.ok_bind, Bool.false_eq_true, if_false,
        Res.get_of_getElem? hn, hgrow, hins, Res.pure_eq]
    · rw [length_insertEntry_of_notMem (lookup_none_iff.1 hlook)]
      exact congrArg (· + 1) ht.len

/-- Inserting a list of entries one after the other. -/
theorem foldlM_insert {l : List (String × String)} (ht : t.Represents es) :
    ∃ t', l.foldlM (fun t e => t.insert e.1 e.2) t = .ok t' ∧
      t'.Represents (l.foldl (fun m e => insertEntry e.1 e.2 m) es) := by
  induction l generalizing t es with
  | nil => exact ⟨t, rfl, ht⟩
  | cons e l ih =>
    obtain ⟨t₁, h₁, ht₁⟩ := insert_spec e.1 e.2 ht
    obtain ⟨t', h', ht'⟩ := ih ht₁
    exact ⟨t', by rw [List.foldlM_cons, h₁]; exact h', ht'⟩

/-- **`delete` never panics**, removes the key, and says whether it was there. -/
theorem delete_spec (key : String) (ht : t.Represents es) :
    ∃ t', t.delete key = .ok ((es.lookup key).isSome, t') ∧ t'.Represents (eraseKey key es) := by
  rcases hlook : es.lookup key with _ | v
  · refine ⟨t, by simp [delete, get_spec ht, hlook], ?_⟩
    rw [eraseKey_of_lookup_none hlook]
    exact ht
  · obtain ⟨t', h', ht'⟩ := foldlM_insert (l := eraseKey key es) new_represents
    rw [foldl_insertEntry (by simpa using sortedKeys_eraseKey ht.sorted), List.nil_append] at ht'
    refine ⟨t', ?_, ht'⟩
    simp only [delete, get_spec ht, hlook, entries_spec ht, Res.ok_bind]
    rw [← eraseKey, h']
    rfl

end Spec

end BTreeIndex

end NutDb
