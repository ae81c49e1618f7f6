/-
  Arenas of any shape.

  A tree that is loaded from a file need not be one that the index has built: its
  nodes may share children, lie at different depths, or contain a cycle, and its
  keys may be in any order.  All that is known of it is that its nodes are
  `Formed`.  The walk from a node ends if no path along the children is longer than
  the stack (`not_deep_of_collectIn`, `collectIn_of_not_deep`), and then it yields
  the entries in ascending order if and only if the arena is in search order
  (`sorted_iff`), which is also what a search relies on (`getFrom_eq`).
-/
import NutDb.BTreeSpec
import NutDb.Lib.Paths

namespace NutDb

open Lib Relation

namespace BTree

/-! ## Interleaved entries in order -/

section Weave
variable {κ β : Type} [LinearOrder κ]

theorem mem_weave {α : Type} {cs : List (List α)} {ks : List α} (h : cs.length = ks.length + 1) {e : α} :
    e ∈ weave cs ks ↔ e ∈ ks ∨ ∃ c ∈ cs, e ∈ c := by
  induction cs generalizing ks with
  | nil => simp at h
  | cons c cs ih =>
    cases ks with
    | nil =>
      obtain rfl : cs = [] := List.length_eq_zero_iff.1 (by simpa using h)
      simp [weave]
    | cons k ks =>
      rw [weave, List.mem_append, List.mem_cons, ih (by simpa using h)]
      simp only [List.mem_cons, exists_eq_or_imp]
      tauto

/-- **What is interleaved is in order** if its parts are, and every key is between its neighbours. -/
theorem sortedKeys_weave {cs : List (List (κ × β))} {ks : List (κ × β)} (h : cs.length = ks.length + 1) :
    SortedKeys (weave cs ks) ↔ (∀ c ∈ cs, SortedKeys c) ∧ SortedKeys ks ∧
      (∀ (i : ℕ) c k, cs[i]? = some c → ks[i]? = some k → ∀ e ∈ c, e.1 < k.1) ∧
      ∀ (i : ℕ) c k, cs[i + 1]? = some c → ks[i]? = some k → ∀ e ∈ c, k.1 < e.1 := by
  induction cs generalizing ks with
  | nil => simp at h
  | cons c cs ih =>
    cases ks with
    | nil =>
      obtain rfl : cs = [] := List.length_eq_zero_iff.1 (by simpa using h)
      simp [weave, SortedKeys]
    | cons k ks =>
      have hlen : cs.length = ks.length + 1 := by simpa using h
      rw [weave, sortedKeys_append, sortedKeys_cons, ih hlen, sortedKeys_cons]
      constructor
      · rintro ⟨hc, ⟨hk, hcs, hks, hbefore, hafter⟩, hlt⟩
        refine ⟨?_, ⟨fun e he => hk e ((mem_weave hlen).2 (Or.inl he)), hks⟩, ?_, ?_⟩
        · intro c' hc'
          rcases List.mem_cons.1 hc' with rfl | hc'
          · exact hc
          · exact hcs c' hc'
        · intro i c' k' hi hi' e he
          cases i with
          | zero =>
            cases hi
            cases hi'
            exact hlt e he k List.mem_cons_self
          | succ i => exact hbefore i c' k' hi hi' e he
        · intro i c' k' hi hi' e he
          cases i with
          | zero =>
            cases hi'
            exact hk e ((mem_weave hlen).2 (Or.inr ⟨c', List.mem_of_getElem? hi, he⟩))
          | succ i => exact hafter i c' k' hi hi' e he
      · rintro ⟨hcs, ⟨hk, hks⟩, hbefore, hafter⟩
        -- a later child is above the key before it, and so above this one
        have habove : ∀ e ∈ weave cs ks, k.1 < e.1 := by
          intro e he
          rcases (mem_weave hlen).1 he with he | ⟨c', hc', he⟩
          · exact hk e he
          · obtain ⟨i, hi⟩ := List.getElem?_of_mem hc'
            cases i with
            | zero => exact hafter 0 c' k hi rfl e he
            | succ i =>
              have hlt : i < ks.length := by
                have := (List.getElem?_eq_some_iff.1 hi).1
                omega
              have hget : ks[i]? = some ks[i] := List.getElem?_eq_getElem hlt
              exact (hk _ (List.mem_of_getElem? hget)).trans (hafter (i + 1) c' _ hi hget e he)
        refine ⟨hcs c List.mem_cons_self, ⟨habove, fun c' hc' => hcs c' (List.mem_cons_of_mem _ hc'), hks,
          fun i => hbefore (i + 1), fun i => hafter (i + 1)⟩, fun e he b hb => ?_⟩
        have hek := hbefore 0 c k rfl rfl e he
        rcases List.mem_cons.1 hb with rfl | hb
        · exact hek
        · exact hek.trans (habove b hb)

end Weave

/-! ## Arenas -/

/-- What a node is like that was read from a page: its lists fit together, and its children are nodes. -/
structure Formed (count : ℕ) (n : Node) : Prop where
  values : n.values.length = n.keys.length
  children : n.leaf = false → n.children.length = n.keys.length + 1
  inRange : ∀ c ∈ n.children, c < count

/-- `c` is a child of the node `id`. -/
def Child (nodes : List Node) (id c : ℕ) : Prop := ∃ n, nodes[id]? = some n ∧ c ∈ n.children

/-- The entries in the order of the walk from a node, down to a depth. -/
def contentTo (nodes : List Node) : ℕ → ℕ → List (String × String)
  | 0, _ => []
  | depth + 1, id =>
    (nodes[id]?.map fun n =>
      if n.leaf then n.kvs else weave (n.children.map (contentTo nodes depth)) n.kvs).getD []

/-- The number of keys that the walk from a node meets, down to a depth. -/
def keyTotal (nodes : List Node) : ℕ → ℕ → ℕ
  | 0, _ => 0
  | depth + 1, id =>
    (nodes[id]?.map fun n => n.keys.length + (n.children.map (keyTotal nodes depth)).sum).getD 0

/-- The key is in a node that can be reached from `id`. -/
def KeyBelow (nodes : List Node) (id : ℕ) (key : String) : Prop :=
  ∃ j n, ReflTransGen (Child nodes) id j ∧ nodes[j]? = some n ∧ key ∈ n.keys

/-- The keys of a node ascend, and each of them is above all keys below the child before it, and below
    all keys below the child after it. -/
structure Node.InOrder (nodes : List Node) (n : Node) : Prop where
  keys : n.keys.Pairwise (· < ·)
  before : ∀ (i : ℕ) c key, n.children[i]? = some c → n.keys[i]? = some key → ∀ k, KeyBelow nodes c k → k < key
  after : ∀ (i : ℕ) c key, n.children[i + 1]? = some c → n.keys[i]? = some key → ∀ k, KeyBelow nodes c k → key < k

/-- **Search order**: all nodes that can be reached are in order. -/
def Ordered (nodes : List Node) (id : ℕ) : Prop :=
  ∀ j n, ReflTransGen (Child nodes) id j → nodes[j]? = some n → n.InOrder nodes

section Arena
variable {nodes : List Node} {depth id : ℕ} {n : Node} {key : String}

theorem child_iff (hn : nodes[id]? = some n) {c : ℕ} : Child nodes id c ↔ c ∈ n.children := by
  constructor
  · rintro ⟨n', hn', hc⟩
    rw [hn] at hn'
    cases hn'
    exact hc
  · exact fun hc => ⟨n, hn, hc⟩

/-- What can be reached from a node. -/
theorem reach_iff (hn : nodes[id]? = some n) {j : ℕ} : ReflTransGen (Child nodes) id j ↔
    j = id ∨ ∃ c ∈ n.children, ReflTransGen (Child nodes) c j := by
  rw [ReflTransGen.cases_head_iff]
  refine or_congr eq_comm (exists_congr fun c => ?_)
  rw [child_iff hn]

theorem keyBelow_iff (hn : nodes[id]? = some n) : KeyBelow nodes id key ↔
    key ∈ n.keys ∨ ∃ c ∈ n.children, KeyBelow nodes c key := by
  constructor
  · rintro ⟨j, m, hreach, hm, hkey⟩
    rcases (reach_iff hn).1 hreach with rfl | ⟨c, hc, hreach⟩
    · rw [hn] at hm
      cases hm
      exact Or.inl hkey
    · exact Or.inr ⟨c, hc, j, m, hreach, hm, hkey⟩
  · rintro (hkey | ⟨c, hc, j, m, hreach, hm, hkey⟩)
    · exact ⟨id, n, .refl, hn, hkey⟩
    · exact ⟨j, m, (reach_iff hn).2 (Or.inr ⟨c, hc, hreach⟩), hm, hkey⟩

theorem ordered_iff (hn : nodes[id]? = some n) : Ordered nodes id ↔
    n.InOrder nodes ∧ ∀ c ∈ n.children, Ordered nodes c := by
  constructor
  · intro h
    exact ⟨h id n .refl hn, fun c hc j m hreach => h j m ((reach_iff hn).2 (Or.inr ⟨c, hc, hreach⟩))⟩
  · rintro ⟨hself, hchildren⟩ j m hreach hm
    rcases (reach_iff hn).1 hreach with rfl | ⟨c, hc, hreach⟩
    · rw [hn] at hm
      cases hm
      exact hself
    · exact hchildren c hc j m hreach hm

theorem deep_succ_iff (hn : nodes[id]? = some n) : Deep (Child nodes) (depth + 1) id ↔
    ∃ c ∈ n.children, Deep (Child nodes) depth c := by
  refine exists_congr fun c => and_congr_left fun _ => ?_
  exact child_iff hn

theorem contentTo_leaf (hn : nodes[id]? = some n) (hleaf : n.leaf = true) :
    contentTo nodes (depth + 1) id = n.kvs := by
  simp [contentTo, hn, hleaf]

theorem contentTo_inner (hn : nodes[id]? = some n) (hleaf : n.leaf = false) :
    contentTo nodes (depth + 1) id = weave (n.children.map (contentTo nodes depth)) n.kvs := by
  simp [contentTo, hn, hleaf]

theorem keyTotal_eq (hn : nodes[id]? = some n) :
    keyTotal nodes (depth + 1) id = n.keys.length + (n.children.map (keyTotal nodes depth)).sum := by
  simp [keyTotal, hn]

theorem children_of_leaf (hleaf : n.leaf = true) : n.children = [] := List.isEmpty_iff.1 hleaf

end Arena

/-! ## The walk -/

/-- Where a loop has succeeded, each of its turns has. -/
theorem turns_of_foldlM {β ι : Type} {f : β → ι → Res β} {l : List ι} {b b' : β}
    (h : l.foldlM f b = .ok b') : ∀ i ∈ l, ∃ b₁ b₂, f b₁ i = .ok b₂ := by
  induction l generalizing b with
  | nil => simp
  | cons i l ih =>
    rw [List.foldlM_cons] at h
    obtain ⟨b₁, hone, hrest⟩ := Res.bind_eq_ok.1 h
    intro j hj
    rcases List.mem_cons.1 hj with rfl | hj
    · exact ⟨b, b₁, hone⟩
    · exact ih hrest j hj

theorem Formed.length_kvs {count : ℕ} {n : Node} (hn : Formed count n) : n.kvs.length = n.keys.length := by
  simp [Node.kvs, hn.values]

theorem Formed.keys_eq {count : ℕ} {n : Node} (hn : Formed count n) : n.kvs.map Prod.fst = n.keys :=
  List.map_fst_zip hn.values.ge

/-- The walk of an inner node has walked each of its children. -/
theorem children_of_walkInner {α : Type} {room : List α → Bool} {item : Node → ℕ → Res α} {n : Node}
    {walk : ℕ → List α → Res (List α)} {out out' : List α}
    (hchildren : n.children.length = n.keys.length + 1) (h : walkInner room item walk n out = .ok out') :
    ∀ c ∈ n.children, ∃ o o', walk c o = .ok o' := by
  obtain ⟨out₁, hloop, h⟩ := Res.bind_eq_ok.1 h
  obtain ⟨last, hlast, h⟩ := Res.bind_eq_ok.1 h
  intro c hc
  obtain ⟨k, hk⟩ := List.getElem?_of_mem hc
  have hlt := (List.getElem?_eq_some_iff.1 hk).1
  by_cases hkeys : k < n.keys.length
  · obtain ⟨o, o', hturn⟩ := turns_of_foldlM hloop k (List.mem_range.2 hkeys)
    obtain ⟨c', hc', hturn⟩ := Res.bind_eq_ok.1 hturn
    obtain ⟨o₁, hwalk, -⟩ := Res.bind_eq_ok.1 hturn
    rw [Res.get_of_getElem? hk] at hc'
    cases hc'
    exact ⟨o, o₁, hwalk⟩
  · obtain rfl : k = n.keys.length := by omega
    rw [Res.get_of_getElem? hk] at hlast
    cases hlast
    exact ⟨out₁, out', h⟩

section Walk
variable {nodes : List Node} {room : List (String × String) → Bool} {depth depth' id : ℕ}
  {out out' : List (String × String)}

theorem exists_node (harena : ∀ n ∈ nodes, Formed nodes.length n) (hid : id < nodes.length) :
    ∃ n, nodes[id]? = some n ∧ Formed nodes.length n :=
  ⟨nodes[id], List.getElem?_eq_getElem hid, harena _ (List.getElem_mem hid)⟩

/-- **The walk ends** where no path is too long, and appends the entries if there is room for them. -/
theorem collectIn_of_not_deep (hroom : Closed room) (harena : ∀ n ∈ nodes, Formed nodes.length n)
    (hid : id < nodes.length) (h : ¬ Deep (Child nodes) depth id) :
    Appends room (collectIn room pairAt nodes depth id) (contentTo nodes depth id) := by
  induction depth generalizing id with
  | zero => exact absurd trivial h
  | succ depth ih =>
    obtain ⟨n, hn, hformed⟩ := exists_node harena hid
    rw [deep_succ_iff hn] at h
    intro out hout
    cases hleaf : n.leaf with
    | true =>
      have hwalk : Appends room (walkLeaf room pairAt n) (n.kvs.map fun e => e) :=
        walkLeaf_appends hroom hformed.values fun i e => pairAt_eq
      rw [List.map_id'] at hwalk
      rw [collectIn_leaf hn hleaf, contentTo_leaf hn hleaf]
      exact hwalk out hout
    | false =>
      have hchild : ∀ c ∈ n.children, Appends room (collectIn room pairAt nodes depth c)
          ((contentTo nodes depth c).map fun e => e) := by
        intro c hc
        rw [List.map_id']
        exact ih (hformed.inRange c hc) fun hdeep => h ⟨c, hc, hdeep⟩
      have hwalk : Appends room (walkInner room pairAt (collectIn room pairAt nodes depth) n)
          ((weave (n.children.map (contentTo nodes depth)) n.kvs).map fun e => e) :=
        walkInner_appends hroom hformed.values (hformed.children hleaf) (fun i e => pairAt_eq) hchild
      rw [List.map_id'] at hwalk
      rw [collectIn_inner hn hleaf, contentTo_inner hn hleaf]
      exact hwalk out hout

/-- **The walk does not end** where a path is too long. -/
theorem not_deep_of_collectIn (harena : ∀ n ∈ nodes, Formed nodes.length n) (hid : id < nodes.length)
    (h : collectIn room pairAt nodes depth id out = .ok out') : ¬ Deep (Child nodes) depth id := by
  induction depth generalizing id out out' with
  | zero => cases h
  | succ depth ih =>
    obtain ⟨n, hn, hformed⟩ := exists_node harena hid
    rw [deep_succ_iff hn]
    rintro ⟨c, hc, hdeep⟩
    have hleaf : n.leaf = false := by
      rw [Node.leaf, List.isEmpty_eq_false_iff]
      exact List.ne_nil_of_mem hc
    rw [collectIn_inner hn hleaf] at h
    obtain ⟨o, o', hwalk⟩ := children_of_walkInner (hformed.children hleaf) h c hc
    exact ih (hformed.inRange c hc) hwalk hdeep

/-- A walk may stop, but it reports no error. -/
theorem collectIn_faults (room : List (String × String) → Bool) (nodes : List Node) (depth id : ℕ)
    (out : List (String × String)) :
    Res.Faults (fun fault => ∃ p, fault = .panic p) (collectIn room pairAt nodes depth id out) := by
  induction depth generalizing id out with
  | zero => exact .error ⟨_, rfl⟩
  | succ depth ih =>
    have hget : ∀ {α : Type} (l : List α) i, Res.Faults (fun fault => ∃ p, fault = .panic p) (Res.get l i) :=
      fun l i => .get ⟨_, rfl⟩ l i
    have hpush : ∀ out e, Res.Faults (fun fault => ∃ p, fault = .panic p) (pushIn room out e) := by
      intro out e
      unfold pushIn
      split_ifs
      · exact .ok _
      · exact .error ⟨_, rfl⟩
    have hitem : ∀ node index out, Res.Faults (fun fault => ∃ p, fault = .panic p)
        (pairAt node index >>= fun e => pushIn room out e) := fun node index out =>
      Res.Faults.bind ((hget _ _).bind fun key => (hget _ _).bind fun value => .ok _) (hpush out)
    rw [collectIn]
    refine (hget nodes id).bind fun node => ?_
    refine Res.Faults.bind (Res.Faults.foldlM (fun out index => ?_) out) fun out => ?_
    · dsimp only
      split_ifs
      · exact hitem node index out
      · exact (hget _ _).bind fun child => (ih child out).bind fun out => hitem node index out
    · split_ifs
      · exact .ok _
      · exact (hget _ _).bind fun child => ih child out

/-- Where no path is too long, more of the stack makes no difference. -/
theorem contentTo_of_not_deep (h : ¬ Deep (Child nodes) depth id) (hle : depth ≤ depth') :
    contentTo nodes depth' id = contentTo nodes depth id := by
  induction depth generalizing id depth' with
  | zero => exact absurd trivial h
  | succ depth ih =>
    obtain ⟨depth', rfl⟩ : ∃ d, depth' = d + 1 := ⟨depth' - 1, by omega⟩
    cases hn : nodes[id]? with
    | none => simp [contentTo, hn]
    | some n =>
      rw [deep_succ_iff hn] at h
      have hchildren : n.children.map (contentTo nodes depth') = n.children.map (contentTo nodes depth) :=
        List.map_congr_left fun c hc => ih (fun hdeep => h ⟨c, hc, hdeep⟩) (by omega)
      simp [contentTo, hn, hchildren]

end Walk

/-! ## Order -/

section Order
variable {nodes : List Node} {depth id : ℕ} {n : Node} {key : String}

theorem length_weave {α : Type} {cs : List (List α)} {ks : List α} (h : cs.length = ks.length + 1) :
    (weave cs ks).length = ks.length + (cs.map List.length).sum := by
  induction cs generalizing ks with
  | nil => simp at h
  | cons c cs ih =>
    cases ks with
    | nil =>
      obtain rfl : cs = [] := List.length_eq_zero_iff.1 (by simpa using h)
      simp [weave]
    | cons k ks =>
      rw [weave, List.length_append, List.length_cons, ih (by simpa using h), List.map_cons, List.sum_cons,
        List.length_cons]
      omega

theorem length_contents (hformed : Formed nodes.length n) (hleaf : n.leaf = false) :
    (n.children.map (contentTo nodes depth)).length = n.kvs.length + 1 := by
  rw [List.length_map, hformed.length_kvs, hformed.children hleaf]

/-- The walk yields as many entries as it meets keys. -/
theorem length_contentTo (harena : ∀ n ∈ nodes, Formed nodes.length n) (hid : id < nodes.length) :
    (contentTo nodes depth id).length = keyTotal nodes depth id := by
  induction depth generalizing id with
  | zero => rfl
  | succ depth ih =>
    obtain ⟨n, hn, hformed⟩ := exists_node harena hid
    rw [keyTotal_eq hn]
    cases hleaf : n.leaf with
    | true => simp [contentTo_leaf hn hleaf, hformed.length_kvs, children_of_leaf hleaf]
    | false =>
      rw [contentTo_inner hn hleaf, length_weave (length_contents hformed hleaf), hformed.length_kvs, List.map_map]
      congr 2
      exact List.map_congr_left fun c hc => ih (hformed.inRange c hc)

/-- The keys that the walk yields are those of the nodes that can be reached. -/
theorem mem_contentTo (harena : ∀ n ∈ nodes, Formed nodes.length n) (hid : id < nodes.length)
    (h : ¬ Deep (Child nodes) depth id) :
    (∃ value, (key, value) ∈ contentTo nodes depth id) ↔ KeyBelow nodes id key := by
  induction depth generalizing id with
  | zero => exact absurd trivial h
  | succ depth ih =>
    obtain ⟨n, hn, hformed⟩ := exists_node harena hid
    have hself : (∃ value, (key, value) ∈ n.kvs) ↔ key ∈ n.keys := by
      rw [← hformed.keys_eq]
      simp
    rw [deep_succ_iff hn] at h
    rw [keyBelow_iff hn, ← hself]
    cases hleaf : n.leaf with
    | true => simp [contentTo_leaf hn hleaf, children_of_leaf hleaf]
    | false =>
      rw [contentTo_inner hn hleaf]
      simp only [mem_weave (length_contents hformed hleaf), exists_or]
      refine or_congr_right ?_
      constructor
      · rintro ⟨value, l, hl, hmem⟩
        obtain ⟨c, hc, rfl⟩ := List.mem_map.1 hl
        exact ⟨c, hc, (ih (hformed.inRange c hc) fun hd => h ⟨c, hc, hd⟩).1 ⟨value, hmem⟩⟩
      · rintro ⟨c, hc, hbelow⟩
        obtain ⟨value, hmem⟩ := (ih (hformed.inRange c hc) fun hd => h ⟨c, hc, hd⟩).2 hbelow
        exact ⟨value, _, List.mem_map_of_mem hc, hmem⟩

/-- What holds between the keys of a node and the entries below its children, `shift` places on. -/
theorem between_iff (harena : ∀ n ∈ nodes, Formed nodes.length n) (hformed : Formed nodes.length n)
    (h : ¬ ∃ c ∈ n.children, Deep (Child nodes) depth c) (R : String → String → Prop) (shift : ℕ) :
    (∀ (i : ℕ) c k, (n.children.map (contentTo nodes depth))[i + shift]? = some c → n.kvs[i]? = some k →
      ∀ e ∈ c, R e.1 k.1) ↔
    ∀ (i : ℕ) c key, n.children[i + shift]? = some c → n.keys[i]? = some key →
      ∀ k, KeyBelow nodes c k → R k key := by
  have hbelow : ∀ {i : ℕ} {c key}, n.children[i]? = some c →
      ((∃ value, (key, value) ∈ contentTo nodes depth c) ↔ KeyBelow nodes c key) := by
    intro i c key hc
    have hmem := List.mem_of_getElem? hc
    exact mem_contentTo harena (hformed.inRange c hmem) fun hd => h ⟨c, hmem, hd⟩
  constructor
  · intro hR i c key hc hkey k hk
    obtain ⟨value, hmem⟩ := (hbelow hc).2 hk
    have hlt : i < n.kvs.length := by
      rw [hformed.length_kvs]
      exact (List.getElem?_eq_some_iff.1 hkey).1
    have hkvs : n.kvs[i]? = some n.kvs[i] := List.getElem?_eq_getElem hlt
    have hfst : (n.kvs[i]).1 = key := by
      rw [← hformed.keys_eq, List.getElem?_map, hkvs] at hkey
      exact Option.some.inj hkey
    rw [← hfst]
    exact hR i _ _ (by rw [List.getElem?_map, hc]; rfl) hkvs (k, value) hmem
  · intro hR i l k hl hk e he
    rw [List.getElem?_map] at hl
    obtain ⟨c, hc, rfl⟩ := Option.map_eq_some_iff.1 hl
    refine hR i c k.1 hc ?_ e.1 ((hbelow hc).1 ⟨e.2, he⟩)
    rw [← hformed.keys_eq, List.getElem?_map, hk]
    rfl

/-- **The walk yields ascending entries** if and only if the arena is in search order. -/
theorem sorted_iff (harena : ∀ n ∈ nodes, Formed nodes.length n) (hid : id < nodes.length)
    (h : ¬ Deep (Child nodes) depth id) : SortedKeys (contentTo nodes depth id) ↔ Ordered nodes id := by
  induction depth generalizing id with
  | zero => exact absurd trivial h
  | succ depth ih =>
    obtain ⟨n, hn, hformed⟩ := exists_node harena hid
    have hself : SortedKeys n.kvs ↔ n.keys.Pairwise (· < ·) := by
      rw [← hformed.keys_eq, List.pairwise_map]
      rfl
    rw [deep_succ_iff hn] at h
    rw [ordered_iff hn]
    cases hleaf : n.leaf with
    | true =>
      have hnil := children_of_leaf hleaf
      rw [contentTo_leaf hn hleaf, hself]
      constructor
      · exact fun hkeys => ⟨⟨hkeys, by simp [hnil], by simp [hnil]⟩, by simp [hnil]⟩
      · exact fun hordered => hordered.1.keys
    | false =>
      have hchildren : (∀ l ∈ n.children.map (contentTo nodes depth), SortedKeys l) ↔
          ∀ c ∈ n.children, Ordered nodes c := by
        rw [List.forall_mem_map]
        exact forall₂_congr fun c hc => ih (hformed.inRange c hc) fun hd => h ⟨c, hc, hd⟩
      have hbefore := between_iff harena hformed h (fun k key => k < key) 0
      have hafter := between_iff harena hformed h (fun k key => key < k) 1
      rw [contentTo_inner hn hleaf, sortedKeys_weave (length_contents hformed hleaf), hchildren, hself]
      constructor
      · rintro ⟨hordered, hkeys, h0, h1⟩
        exact ⟨⟨hkeys, hbefore.1 h0, hafter.1 h1⟩, hordered⟩
      · rintro ⟨⟨hkeys, h0, h1⟩, hordered⟩
        exact ⟨hordered, hkeys, hbefore.2 h0, hafter.2 h1⟩

theorem exists_split {α : Type} {l : List α} {i : ℕ} (h : i < l.length) :
    ∃ as a bs, l = as ++ a :: bs ∧ as.length = i := by
  refine ⟨l.take i, l[i], l.drop (i + 1), ?_, ?_⟩
  · rw [← List.drop_eq_getElem_cons h, List.take_append_drop]
  · rw [List.length_take]
    omega

/-- The content around the child that a search goes on with. -/
theorem contentTo_around (hformed : Formed nodes.length n) (hn : nodes[id]? = some n) (hleaf : n.leaf = false)
    (hsorted : SortedKeys (contentTo nodes (depth + 1) id)) {ks₁ ks₂ : List String} (hk : n.keys = ks₁ ++ ks₂)
    (h₁ : ∀ x ∈ ks₁, x < key) (h₂ : ∀ x ∈ ks₂, key < x) :
    ∃ c F B, c ∈ n.children ∧ Res.get n.children ks₁.length = .ok c ∧
      contentTo nodes (depth + 1) id = F ++ contentTo nodes depth c ++ B ∧ SortedKeys (contentTo nodes depth c) ∧
      (∀ e ∈ F, e.1 < key) ∧ ∀ e ∈ B, key < e.1 := by
  obtain ⟨kv₁, kv₂, hkv, rfl, rfl⟩ : ∃ kv₁ kv₂, n.kvs = kv₁ ++ kv₂ ∧ kv₁.map Prod.fst = ks₁ ∧
      kv₂.map Prod.fst = ks₂ := List.map_eq_append_iff.1 (hformed.keys_eq.trans hk)
  have hlt : kv₁.length < n.children.length := by
    rw [hformed.children hleaf, hk, List.length_append, List.length_map]
    omega
  obtain ⟨as, c, bs, hcs, hlen⟩ := exists_split hlt
  have hcontent : contentTo nodes (depth + 1) id =
      front (as.map (contentTo nodes depth)) kv₁ ++ contentTo nodes depth c ++
        back (bs.map (contentTo nodes depth)) kv₂ := by
    rw [contentTo_inner hn hleaf, hcs, hkv, List.map_append, List.map_cons]
    exact weave_split (by rw [List.length_map, hlen])
  rw [hcontent] at hsorted
  obtain ⟨hfront, hback, -⟩ := sortedKeys_append.1 hsorted
  obtain ⟨hbefore, hchild, -⟩ := sortedKeys_append.1 hfront
  refine ⟨c, _, _, by rw [hcs]; simp, ?_, hcontent, hchild, ?_, ?_⟩
  · rw [hcs, List.length_map, ← hlen, Res.get_append_cons]
  · exact front_lt hbefore fun e he => h₁ _ (List.mem_map_of_mem he)
  · exact back_gt hback fun e he => h₂ _ (List.mem_map_of_mem he)

/-- **`get_from`** finds the entries, if they are in order. -/
theorem getFrom_eq (harena : ∀ n ∈ nodes, Formed nodes.length n) (hid : id < nodes.length)
    (h : ¬ Deep (Child nodes) depth id) (hsorted : SortedKeys (contentTo nodes depth id)) :
    getFrom nodes depth id key = .ok ((contentTo nodes depth id).lookup key) := by
  induction depth generalizing id with
  | zero => exact absurd trivial h
  | succ depth ih =>
    obtain ⟨n, hn, hformed⟩ := exists_node harena hid
    rw [deep_succ_iff hn] at h
    have hkvs : n.kvs.Sublist (contentTo nodes (depth + 1) id) := by
      cases hleaf : n.leaf with
      | true => rw [contentTo_leaf hn hleaf]
      | false =>
        rw [contentTo_inner hn hleaf]
        exact sublist_weave (length_contents hformed hleaf)
    have hkeys : n.keys.Pairwise (· < ·) := by
      rw [← hformed.keys_eq, List.pairwise_map]
      exact hsorted.sublist hkvs
    rw [getFrom, Res.get_of_getElem? hn]
    rcases binarySearch_spec key hkeys with ⟨ks₁, ks₂, hk, hb⟩ | ⟨ks₁, ks₂, hk, hb, h₁, h₂⟩
    · obtain ⟨v, hv⟩ : ∃ v, n.values[ks₁.length]? = some v := by
        refine ⟨_, List.getElem?_eq_getElem ?_⟩
        rw [hformed.values, hk]
        simp
      have hmem : (key, v) ∈ n.kvs := by
        refine List.mem_of_getElem? (i := ks₁.length) (List.getElem?_zip_eq_some.2 ⟨?_, hv⟩)
        rw [hk]
        simp
      simp only [Res.ok_bind, hb, Res.get_of_getElem? hv, lookup_of_mem hsorted (hkvs.subset hmem), Res.pure_eq]
    · simp only [Res.ok_bind, hb]
      cases hleaf : n.leaf with
      | true =>
        rw [if_pos rfl, contentTo_leaf hn hleaf, lookup_none_iff.2 fun e he => ?_, Res.pure_eq]
        have hmem : e.1 ∈ n.keys := hformed.keys_eq ▸ List.mem_map_of_mem he
        rw [hk] at hmem
        rcases List.mem_append.1 hmem with hmem | hmem
        · exact (h₁ _ hmem).ne
        · exact (h₂ _ hmem).ne'
      | false =>
        obtain ⟨c, F, B, hc, hget, hcontent, hchild, hF, hB⟩ := contentTo_around hformed hn hleaf hsorted hk h₁ h₂
        rw [hcontent, lookup_between hF hB]
        simp only [hget, Res.ok_bind, Bool.false_eq_true, if_false]
        exact ih (hformed.inRange c hc) (fun hd => h ⟨c, hc, hd⟩) hchild

end Order

end BTree

end NutDb
