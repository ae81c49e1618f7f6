/-
  Runs of the B-tree index.

  After any sequence of insertions and deletions the index is the sorted map that
  the sequence describes, no operation panics, and the arena is a B-tree:
  `RepOk` says so node by node.
-/
import NutDb.SnapshotFits

namespace NutDb

open Lib BTree

/-! ## The nodes of an arena -/

namespace BTree

/-- The node `b` is `d` levels below the node `a`. -/
inductive AtDepth (nodes : List Node) (a : ℕ) : ℕ → ℕ → Prop
  | refl : AtDepth nodes a 0 a
  | child {d p c : ℕ} {n : Node} : AtDepth nodes a d p → nodes[p]? = some n → c ∈ n.children →
      AtDepth nodes a (d + 1) c

section AtDepth
variable {nodes : List Node} {h a b d : ℕ} {n m : Node}

theorem AtDepth.under {p : ℕ} (hn : nodes[p]? = some n) (hc : a ∈ n.children) (h : AtDepth nodes a d b) :
    AtDepth nodes p (d + 1) b := by
  induction h with
  | refl => exact AtDepth.refl.child hn hc
  | child _ hm hb ih => exact ih.child hm hb

theorem atDepth_of_mem_idsAt (hs : Sub nodes h a) (hb : b ∈ idsAt nodes h a) : ∃ d, AtDepth nodes a d b := by
  induction h generalizing a with
  | zero =>
    rw [idsAt, List.mem_singleton] at hb
    exact ⟨0, hb ▸ .refl⟩
  | succ h ih =>
    obtain ⟨n, hn, -⟩ := hs.node
    obtain ⟨-, -, hc⟩ := hs.inner hn
    rw [idsAt_succ hn, List.mem_cons, List.mem_flatMap] at hb
    rcases hb with rfl | ⟨c, hcn, hb⟩
    · exact ⟨0, .refl⟩
    · obtain ⟨d, hd⟩ := ih (hc c hcn).1 hb
      exact ⟨d + 1, hd.under hn hcn⟩

/-- The content of a child is part of the content of its parent. -/
theorem sublist_entriesAt_child {c : ℕ} (hs : Sub nodes (h + 1) a) (hn : nodes[a]? = some n)
    (hc : c ∈ n.children) : (entriesAt nodes h c).Sublist (entriesAt nodes (h + 1) a) := by
  obtain ⟨hok, hlen, -⟩ := hs.inner hn
  obtain ⟨as, bs, hcs⟩ := List.append_of_mem hc
  have hkvs : n.kvs.length = n.keys.length := by simp [Node.kvs, hok.1]
  have has : as.length ≤ n.kvs.length := by
    rw [hcs, List.length_append, List.length_cons] at hlen
    omega
  rw [entriesAt_child hn hcs (List.take_append_drop as.length n.kvs).symm (by simp; omega)]
  exact ((List.sublist_append_right _ _).trans (List.sublist_append_left _ _))

/-- **What is below a well-formed subtree** is well-formed, and its content is part of it. -/
theorem AtDepth.sub (hb : AtDepth nodes a d b) (hs : Sub nodes h a) :
    ∃ k, h = d + k ∧ Sub nodes k b ∧ (entriesAt nodes k b).Sublist (entriesAt nodes h a) ∧
      (d ≠ 0 → MIN_DEGREE - 1 ≤ keyCount nodes b) := by
  induction hb with
  | refl => exact ⟨h, by omega, hs, List.Sublist.refl _, fun h0 => absurd rfl h0⟩
  | @child d p c n _ hn hc ih =>
    obtain ⟨k, hk, hp, hsub, -⟩ := ih
    cases k with
    | zero =>
      rw [(hp.leaf hn).2] at hc
      cases hc
    | succ k =>
      obtain ⟨hcs, hcount⟩ := (hp.inner hn).2.2 c hc
      exact ⟨k, by omega, hcs, (sublist_entriesAt_child hp hn hc).trans hsub, fun _ => hcount⟩

/-- The keys of a node are in the content of its subtree. -/
theorem exists_mem_entriesAt {key : String} (hs : Sub nodes h a) (hn : nodes[a]? = some n)
    (hk : key ∈ n.keys) : ∃ v, (key, v) ∈ entriesAt nodes h a := by
  obtain ⟨n', hn', hok⟩ := hs.node
  rw [hn] at hn'
  cases hn'
  obtain ⟨i, hi⟩ := List.mem_iff_getElem?.1 hk
  have hlt := (List.getElem?_eq_some_iff.1 hi).1
  obtain ⟨v, hv⟩ : ∃ v, n.values[i]? = some v :=
    ⟨_, List.getElem?_eq_getElem (by rw [hok.1]; exact hlt)⟩
  have hmem : (key, v) ∈ n.kvs := List.mem_iff_getElem?.2 ⟨i, List.getElem?_zip_eq_some.2 ⟨hi, hv⟩⟩
  refine ⟨v, ?_⟩
  cases h with
  | zero => rw [entriesAt_zero hn]; exact hmem
  | succ h =>
    rw [entriesAt_succ hn]
    refine mem_weave_of_mem ?_ hmem
    rw [List.length_map, (hs.inner hn).2.1, Node.kvs, List.length_zip, hok.1, Nat.min_self]

/-- The nodes of a subtree are its root and the children of its nodes. -/
theorem idsAt_perm (hs : Sub nodes h a) : (idsAt nodes h a).Perm
    (a :: (idsAt nodes h a).flatMap fun id => (nodes[id]?.map Node.children).getD []) := by
  induction h generalizing a with
  | zero =>
    obtain ⟨n, hn, -, hc⟩ := hs
    simp [idsAt, hn, hc]
  | succ h ih =>
    obtain ⟨n, hn, -⟩ := hs.node
    obtain ⟨-, -, hc⟩ := hs.inner hn
    rw [idsAt_succ hn, List.flatMap_cons, hn]
    refine List.Perm.cons a ?_
    have hloop : ∀ cs : List ℕ, (∀ c ∈ cs, Sub nodes h c) → (cs.flatMap (idsAt nodes h)).Perm
        (cs ++ (cs.flatMap (idsAt nodes h)).flatMap fun id => (nodes[id]?.map Node.children).getD []) := by
      intro cs hcs
      induction cs with
      | nil => simp
      | cons c cs ihcs =>
        have h1 := ih (hcs c List.mem_cons_self)
        have h2 := ihcs fun c' hc' => hcs c' (List.mem_cons_of_mem _ hc')
        rw [List.flatMap_cons, List.flatMap_append, List.cons_append]
        refine (h1.append h2).trans ?_
        rw [List.cons_append]
        refine List.Perm.cons c ?_
        rw [← List.append_assoc, ← List.append_assoc]
        exact List.Perm.append_right _ List.perm_append_comm
    exact hloop n.children fun c hcn => (hc c hcn).1

end AtDepth

end BTree

/-! ## The representation invariant -/

namespace BTreeIndex

/-- **The representation invariant**, for a tree of height `h`. -/
structure RepOk (t : BTreeIndex) (h : ℕ) : Prop where
  /-- Every node is below the root. -/
  reachable : ∀ id < t.nodes.length, ∃ d, AtDepth t.nodes t.root d id
  /-- Every node but the root is a child of one node, at one position. -/
  parents : (t.root :: t.nodes.flatMap Node.children).Perm (List.range t.nodes.length)
  /-- The sizes of the nodes. -/
  sizes : ∀ (id : ℕ) (n : Node), t.nodes[id]? = some n → n.values.length = n.keys.length ∧ n.keys.length ≤ MAX_KEYS ∧
    (id ≠ t.root → MIN_DEGREE - 1 ≤ n.keys.length) ∧
    (n.children ≠ [] → n.children.length = n.keys.length + 1)
  /-- All leaves are at the same depth. -/
  leaves : ∀ (d id : ℕ) (n : Node), AtDepth t.nodes t.root d id → t.nodes[id]? = some n → (n.children = [] ↔ d = h)
  /-- The keys of a node ascend. -/
  ascending : ∀ (id : ℕ) (n : Node), t.nodes[id]? = some n → n.keys.Pairwise (· < ·)
  /-- The keys below a child lie between the keys around it. -/
  order : ∀ (id i c : ℕ) (n : Node), t.nodes[id]? = some n → n.children[i]? = some c →
    ∀ (d b : ℕ) (m : Node), AtDepth t.nodes c d b → t.nodes[b]? = some m → ∀ key ∈ m.keys,
      ∀ (j : ℕ) (k : String), n.keys[j]? = some k → (j < i → k < key) ∧ (i ≤ j → key < k)

section RepOk
variable {nodes : List Node} {h a : ℕ} {n : Node}

/-- The keys of the root of a sorted subtree ascend. -/
theorem ascending_of_sorted (hs : Sub nodes h a) (hn : nodes[a]? = some n)
    (hsorted : SortedKeys (entriesAt nodes h a)) : n.keys.Pairwise (· < ·) := by
  obtain ⟨n', hn', hok⟩ := hs.node
  rw [hn] at hn'
  cases hn'
  have hkvs : SortedKeys n.kvs := by
    cases h with
    | zero => rwa [entriesAt_zero hn] at hsorted
    | succ h =>
      rw [entriesAt_succ hn] at hsorted
      refine hsorted.sublist (sublist_weave ?_)
      rw [List.length_map, (hs.inner hn).2.1, Node.kvs, List.length_zip, hok.1, Nat.min_self]
  have hkeys : n.kvs.map Prod.fst = n.keys := List.map_fst_zip (by rw [hok.1])
  rw [← hkeys, List.pairwise_map]
  exact hkvs

/-- The content below a child of a sorted subtree lies between the keys around the child. -/
theorem order_of_sorted {i c : ℕ} (hs : Sub nodes (h + 1) a) (hn : nodes[a]? = some n)
    (hsorted : SortedKeys (entriesAt nodes (h + 1) a)) (hc : n.children[i]? = some c)
    {e : String × String} (he : e ∈ entriesAt nodes h c) {j : ℕ} {k : String} (hk : n.keys[j]? = some k) :
    (j < i → k < e.1) ∧ (i ≤ j → e.1 < k) := by
  obtain ⟨hok, hlen, -⟩ := hs.inner hn
  have hi := (List.getElem?_eq_some_iff.1 hc).1
  have hj := (List.getElem?_eq_some_iff.1 hk).1
  have hkvs : n.kvs.length = n.keys.length := by simp [Node.kvs, hok.1]
  obtain ⟨v, hv⟩ : ∃ v, n.values[j]? = some v := ⟨_, List.getElem?_eq_getElem (by rw [hok.1]; exact hj)⟩
  have hkv : n.kvs[j]? = some (k, v) := List.getElem?_zip_eq_some.2 ⟨hk, hv⟩
  have hcs : n.children = n.children.take i ++ c :: n.children.drop (i + 1) := by
    obtain ⟨_, hget⟩ := List.getElem?_eq_some_iff.1 hc
    rw [← hget, List.getElem_cons_drop, List.take_append_drop]
  rw [entriesAt_child hn hcs (List.take_append_drop i n.kvs).symm (by simp; omega),
    sortedKeys_append, sortedKeys_append] at hsorted
  obtain ⟨⟨-, -, hfront⟩, -, hback⟩ := hsorted
  constructor
  · intro hji
    refine hfront (k, v) (mem_front_of_mem (by simp; omega) ?_) e he
    refine List.mem_iff_getElem?.2 ⟨j, ?_⟩
    rw [List.getElem?_take_of_lt hji, hkv]
  · intro hij
    have hmem : (k, v) ∈ n.kvs.drop i :=
      List.mem_iff_getElem?.2 ⟨j - i, by rw [List.getElem?_drop, Nat.add_sub_cancel' hij, hkv]⟩
    refine hback e (List.mem_append_right _ he) (k, v) (mem_back_of_mem ?_ hmem)
    rw [List.length_map, List.length_drop, List.length_drop]
    omega

theorem repOk_of_whole {t : BTreeIndex} (hw : Whole t.nodes h t.root)
    (hsorted : SortedKeys (entriesAt t.nodes h t.root)) : t.RepOk h := by
  have hreach : ∀ id < t.nodes.length, ∃ d, AtDepth t.nodes t.root d id := fun id hid =>
    atDepth_of_mem_idsAt hw.sub (hw.ids.mem_iff.2 (List.mem_range.2 hid))
  -- every node of the arena is the root of a sorted subtree
  have hsub : ∀ {id n}, t.nodes[id]? = some n → ∃ d k, AtDepth t.nodes t.root d id ∧ h = d + k ∧
      Sub t.nodes k id ∧ SortedKeys (entriesAt t.nodes k id) ∧
      (d ≠ 0 → MIN_DEGREE - 1 ≤ keyCount t.nodes id) := by
    intro id n hn
    obtain ⟨d, hd⟩ := hreach id (List.getElem?_eq_some_iff.1 hn).1
    obtain ⟨k, hk, hs, hl, hcount⟩ := hd.sub hw.sub
    exact ⟨d, k, hd, hk, hs, hsorted.sublist hl, hcount⟩
  refine ⟨hreach, ?_, fun id n hn => ?_, fun d id n hd hn => ?_, fun id n hn => ?_,
    fun id i c n hn hc d b m hb hm key hkey j k hk => ?_⟩
  · have harena : ((List.range t.nodes.length).flatMap fun id => (t.nodes[id]?.map Node.children).getD []) =
        t.nodes.flatMap Node.children := by
      rw [List.flatMap_def, List.flatMap_def]
      refine congrArg List.flatten (List.ext_getElem (by simp) fun i hi hi' => ?_)
      have hlt : i < t.nodes.length := by simpa using hi
      simp [hlt]
    rw [← harena]
    exact (((idsAt_perm hw.sub).trans ((hw.ids.flatMap_right _).cons _)).symm).trans hw.ids
  · obtain ⟨d, k, hd, -, hs, -, hcount⟩ := hsub hn
    obtain ⟨n', hn', hok⟩ := hs.node
    rw [hn] at hn'
    cases hn'
    refine ⟨hok.1, hok.2, fun hroot => ?_, fun hc => ?_⟩
    · have hd0 : d ≠ 0 := by
        rintro rfl
        cases hd
        exact hroot rfl
      have := hcount hd0
      rwa [keyCount_eq hn] at this
    · cases k with
      | zero => exact absurd (hs.leaf hn).2 hc
      | succ k => exact (hs.inner hn).2.1
  · obtain ⟨k, hk, hs, -, -⟩ := hd.sub hw.sub
    cases k with
    | zero => exact ⟨fun _ => by omega, fun _ => (hs.leaf hn).2⟩
    | succ k =>
      have hlen := (hs.inner hn).2.1
      exact ⟨fun hc => by rw [hc] at hlen; simp at hlen, fun hd => by omega⟩
  · obtain ⟨d, k, -, -, hs, hsort, -⟩ := hsub hn
    exact ascending_of_sorted hs hn hsort
  · obtain ⟨d', k', -, -, hs, hsort, -⟩ := hsub hn
    cases k' with
    | zero =>
      rw [(hs.leaf hn).2] at hc
      cases hc
    | succ k' =>
      have hcs := ((hs.inner hn).2.2 c (List.mem_of_getElem? hc)).1
      obtain ⟨k'', -, hbs, hl, -⟩ := hb.sub hcs
      obtain ⟨v, hv⟩ := exists_mem_entriesAt hbs hm hkey
      exact order_of_sorted hs hn hsort hc (hl.subset hv) hk

end RepOk

/-! ## Runs -/

/-- The calls that change an index. -/
inductive Op where
  | insert (key value : String)
  | delete (key : String)
  deriving DecidableEq, Repr

/-- What a call does. -/
def Op.run (t : BTreeIndex) : Op → Res BTreeIndex
  | .insert key value => t.insert key value
  | .delete key => do
    let (_, t) ← t.delete key
    return t

/-- A sequence of calls. -/
def runOps (ops : List Op) : Res BTreeIndex := ops.foldlM Op.run new

/-- The value of a key after a call, from its value before. -/
def Op.value (key : String) (v : Option String) : Op → Option String
  | .insert k value => if key = k then some value else v
  | .delete k => if key = k then none else v

/-- The value of the latest insertion of a key, unless a deletion of the key follows. -/
def live (ops : List Op) (key : String) : Option String := ops.foldl (Op.value key) none

/-- **A run** never panics, and ends with an index for the map that it describes. -/
theorem runOps_represents (ops : List Op) :
    ∃ t es, runOps ops = .ok t ∧ t.Represents es ∧ ∀ key, es.lookup key = live ops key := by
  induction ops using List.reverseRecOn with
  | nil => exact ⟨new, [], rfl, new_represents, fun _ => rfl⟩
  | append_singleton ops op ih =>
    obtain ⟨t, es, hrun, ht, hlive⟩ := ih
    have hstep : runOps (ops ++ [op]) = op.run t := by
      rw [runOps, List.foldlM_append]
      rw [runOps] at hrun
      rw [hrun, Res.ok_bind, List.foldlM_cons]
      cases op.run t <;> rfl
    have hvalue : ∀ key, live (ops ++ [op]) key = op.value key (es.lookup key) := by
      intro key
      rw [live, List.foldl_append, hlive]
      rfl
    rw [hstep]
    cases op with
    | insert key value =>
      obtain ⟨t', h', ht'⟩ := insert_spec key value ht
      exact ⟨t', _, h', ht', fun k => by rw [hvalue, lookup_insertEntry]; rfl⟩
    | delete key =>
      obtain ⟨t', h', ht'⟩ := delete_spec key ht
      exact ⟨t', _, by rw [Op.run, h']; rfl, ht', fun k => by rw [hvalue, lookup_eraseKey]; rfl⟩

theorem range_spec {t : BTreeIndex} {es : List (String × String)} (ht : t.Represents es)
    (start stop : String) : t.range start stop =
      .ok (es.filter fun e => decide (start ≤ e.1) && decide (e.1 < stop)) := by
  rw [range, entries_spec ht]
  rfl

/-- **The index refines a sorted map.** -/
theorem index_refines (ops : List Op) :
    ∃ t es, runOps ops = .ok t ∧
      (∀ key, t.get key = .ok (live ops key)) ∧
      (∀ key, ∃ t', t.delete key = .ok ((live ops key).isSome, t')) ∧
      (t.entries = .ok es ∧ t.keys = .ok (es.map Prod.fst) ∧ t.len = es.length ∧ SortedKeys es ∧
        ∀ key value, (key, value) ∈ es ↔ live ops key = some value) ∧
      ∀ start stop, ∃ rs, t.range start stop = .ok rs ∧ SortedKeys rs ∧
        ∀ key value, (key, value) ∈ rs ↔ live ops key = some value ∧ start ≤ key ∧ key < stop := by
  obtain ⟨t, es, hrun, ht, hlive⟩ := runOps_represents ops
  have hmem : ∀ key value, (key, value) ∈ es ↔ live ops key = some value := fun key value => by
    rw [← hlive]
    exact ⟨lookup_of_mem ht.sorted, mem_of_lookup⟩
  refine ⟨t, es, hrun, fun key => by rw [get_spec ht, hlive], fun key => ?_,
    ⟨entries_spec ht, keys_spec ht, ht.len, ht.sorted, hmem⟩, fun start stop => ?_⟩
  · obtain ⟨t', h', -⟩ := delete_spec key ht
    exact ⟨t', by rw [h', hlive]⟩
  · refine ⟨_, range_spec ht start stop, List.Pairwise.filter _ ht.sorted, fun key value => ?_⟩
    rw [List.mem_filter, hmem, Bool.and_eq_true, decide_eq_true_eq, decide_eq_true_eq]

/-- **The representation invariant** holds after every run, and no call panics. -/
theorem index_repOk (ops : List Op) :
    ∃ t h, runOps ops = .ok t ∧ t.RepOk h ∧ ∀ key value,
      (∃ v, t.get key = .ok v) ∧ (∃ t', t.insert key value = .ok t') ∧
      (∃ b t', t.delete key = .ok (b, t')) ∧ (∃ es, t.entries = .ok es) ∧ ∃ ks, t.keys = .ok ks := by
  obtain ⟨t, es, hrun, ht, -⟩ := runOps_represents ops
  obtain ⟨h, hw, rfl⟩ := ht.whole
  refine ⟨t, h, hrun, repOk_of_whole hw ht.sorted, fun key value => ⟨⟨_, get_spec ht⟩, ?_, ?_,
    ⟨_, entries_spec ht⟩, ⟨_, keys_spec ht⟩⟩⟩
  · obtain ⟨t', h', -⟩ := insert_spec key value ht
    exact ⟨t', h'⟩
  · obtain ⟨t', h', -⟩ := delete_spec key ht
    exact ⟨_, t', h'⟩

/-- **A saved index is loaded as it was**: the same root, the same nodes and the same length. -/
theorem load_of_save {ops : List Op} {t : BTreeIndex} {d : Disk FileName} {fileOps : List (DiskOp FileName)}
    (hrun : runOps ops = .ok t) (hsave : t.save d = (fileOps, .ok ())) :
    ∃ f, d.runOps fileOps .pages = some f ∧ (loadExact f.bytes).2 = .ok t := by
  obtain ⟨t', es, hrun', ht, -⟩ := runOps_represents ops
  rw [hrun] at hrun'
  cases hrun'
  obtain ⟨file, hpages, hload⟩ := runOps_save_pages ht hsave
  exact ⟨_, hpages, hload⟩

/-- A save succeeds if the new file can be written. -/
theorem save_of_saveTemp {t : BTreeIndex} (h : t.saveTemp.2 = .ok ()) (d : Disk FileName) :
    ∃ fileOps, t.save d = (fileOps, .ok ()) := by
  rcases hsave : t.saveTemp with ⟨ops, r⟩
  rw [hsave] at h
  cases h
  simp only [save, hsave]
  exact ⟨_, rfl⟩

/-- A full root is split, and a key is deleted below it. -/
theorem load_of_save_split : ∃ ops t fileOps f, runOps ops = .ok t ∧ t.nodes.length = 3 ∧ t.len = 16 ∧
    t.save (fun _ => none) = (fileOps, .ok ()) ∧ Disk.runOps (fun _ => none) fileOps FileName.pages = some f ∧
    (loadExact f.bytes).2 = .ok t := by
  have hrun : runOps ((["a", "b", "c", "d", "e", "f", "g", "h", "i", "j", "k", "l", "m", "n", "o", "p",
      "q"].map fun key => Op.insert key (key ++ key)) ++ [.delete "c"]) =
      .ok ⟨[⟨["a", "b", "d", "e", "f", "g", "h"], ["aa", "bb", "dd", "ee", "ff", "gg", "hh"], []⟩,
        ⟨["i"], ["ii"], [0, 2]⟩,
        ⟨["j", "k", "l", "m", "n", "o", "p", "q"], ["jj", "kk", "ll", "mm", "nn", "oo", "pp", "qq"], []⟩], 1, 16⟩ := by
    decide +kernel
  obtain ⟨t, es, hrun', ht, -⟩ := runOps_represents _
  rw [hrun] at hrun'
  cases hrun'
  obtain ⟨fileOps, hsave⟩ := save_of_saveTemp ((saveTemp_iff ht).2 ⟨by decide +kernel, by decide⟩) fun _ => none
  obtain ⟨f, hf, hload⟩ := load_of_save hrun hsave
  exact ⟨_, _, fileOps, f, hrun, rfl, rfl, hsave, hf, hload⟩

end BTreeIndex

end NutDb
