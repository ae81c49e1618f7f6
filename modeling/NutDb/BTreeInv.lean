/-
  The B-tree index is a sorted map.

  A subtree is described by its height: `Sub nodes h id` says that the node `id`
  of the arena is the root of a subtree of height `h` in which every node has
  the right number of keys, values and children; `entriesAt` is its content in
  order and `idsAt` the nodes it occupies.  What an operation does to a subtree
  is a `Grown` step: its content changes as stated, its nodes are the old ones
  and the freshly pushed ones, and nothing else in the arena changes.  A step on
  a child is a step on the parent (`Grown.child`), which is the induction step
  of every operation.
-/
import NutDb.BTree

namespace NutDb

open Lib

namespace BTree

/-! ## Interleaving keys and children -/

section Weave
variable {α : Type}

/-- The content of an inner node: its children's contents with its entries in between. -/
def weave : List (List α) → List α → List α
  | [], _ => []
  | c :: _, [] => c
  | c :: cs, k :: ks => c ++ k :: weave cs ks

/-- The part of the content before a child. -/
def front : List (List α) → List α → List α
  | c :: cs, k :: ks => c ++ k :: front cs ks
  | _, _ => []

/-- The part of the content after a child. -/
def back (cs : List (List α)) : List α → List α
  | [] => []
  | k :: ks => k :: weave cs ks

theorem back_cons (cs : List (List α)) (k : α) (ks : List α) :
    back cs (k :: ks) = k :: weave cs ks := rfl

theorem weave_cons (c : List α) (cs : List (List α)) (ks : List α) :
    weave (c :: cs) ks = c ++ back cs ks := by
  cases ks <;> simp [weave, back]

theorem weave_split {as bs : List (List α)} {c : List α} {ks₁ ks₂ : List α}
    (h : as.length = ks₁.length) :
    weave (as ++ c :: bs) (ks₁ ++ ks₂) = front as ks₁ ++ c ++ back bs ks₂ := by
  induction as generalizing ks₁ with
  | nil =>
    obtain rfl := List.length_eq_zero_iff.1 h.symm
    cases ks₂ <;> simp [weave, front, back]
  | cons a as ih =>
    obtain ⟨k, ks₁, rfl⟩ := List.exists_cons_of_length_eq_add_one h.symm
    simp [weave, front, ih (by simpa using h)]

theorem front_concat {as : List (List α)} {c : List α} {ks : List α} {k : α}
    (h : as.length = ks.length) : front (as ++ [c]) (ks ++ [k]) = front as ks ++ c ++ [k] := by
  induction as generalizing ks with
  | nil => obtain rfl := List.length_eq_zero_iff.1 h.symm; simp [front]
  | cons a as ih =>
    obtain ⟨k', ks, rfl⟩ := List.exists_cons_of_length_eq_add_one h.symm
    simp [front, ih (by simpa using h)]

/-- The content of a node that is split around a key. -/
theorem weave_median {as bs : List (List α)} {k : α} {ks₁ ks₂ : List α}
    (h : as.length = ks₁.length + 1) :
    weave (as ++ bs) (ks₁ ++ k :: ks₂) = weave as ks₁ ++ k :: weave bs ks₂ := by
  induction as generalizing ks₁ with
  | nil => simp at h
  | cons a as ih =>
    cases ks₁ with
    | nil =>
      obtain rfl : as = [] := List.length_eq_zero_iff.1 (by simpa using h)
      simp [weave]
    | cons k' ks₁ => simp [weave, ih (by simpa using h)]

theorem mem_front_of_mem {cs : List (List α)} {ks : List α} (h : cs.length = ks.length) {k : α}
    (hk : k ∈ ks) : k ∈ front cs ks := by
  induction cs generalizing ks with
  | nil => obtain rfl := List.length_eq_zero_iff.1 h.symm; simp at hk
  | cons c cs ih =>
    obtain ⟨k', ks, rfl⟩ := List.exists_cons_of_length_eq_add_one h.symm
    rcases List.mem_cons.1 hk with rfl | hk
    · simp [front]
    · simp [front, ih (by simpa using h) hk]

theorem mem_weave_of_mem {cs : List (List α)} {ks : List α} (h : cs.length = ks.length + 1) {k : α}
    (hk : k ∈ ks) : k ∈ weave cs ks := by
  obtain ⟨ks₁, ks₂, rfl⟩ := List.append_of_mem hk
  simp only [List.length_append, List.length_cons] at h
  rw [← List.take_append_drop (ks₁.length + 1) cs, weave_median (by simp; omega)]
  simp

theorem mem_back_of_mem {cs : List (List α)} {ks : List α} (h : cs.length = ks.length) {k : α}
    (hk : k ∈ ks) : k ∈ back cs ks := by
  cases ks with
  | nil => cases hk
  | cons k' ks =>
    rcases List.mem_cons.1 hk with rfl | hk
    · exact List.mem_cons_self
    · exact List.mem_cons_of_mem _ (mem_weave_of_mem (by simpa using h) hk)

theorem sublist_weave : ∀ {cs : List (List α)} {ks : List α}, cs.length = ks.length + 1 →
    ks.Sublist (weave cs ks)
  | _ :: _, [], _ => List.nil_sublist _
  | c :: cs, k :: ks, h => by
    rw [weave]
    exact ((sublist_weave (by simpa using h)).cons_cons k).trans (List.sublist_append_right _ _)

variable {κ β : Type} [LinearOrder κ]

/-- The part before a child is below any bound of its keys. -/
theorem front_lt {cs : List (List (κ × β))} {ks : List (κ × β)} {key : κ}
    (hs : SortedKeys (front cs ks)) (hk : ∀ k ∈ ks, k.1 < key) : ∀ e ∈ front cs ks, e.1 < key := by
  induction cs generalizing ks with
  | nil => simp [front]
  | cons c cs ih =>
    cases ks with
    | nil => simp [front]
    | cons k ks =>
      rw [front] at hs ⊢
      obtain ⟨-, h2, h3⟩ := sortedKeys_append.1 hs
      have hkk := hk k (by simp)
      intro e he
      rcases List.mem_append.1 he with he | he
      · exact (h3 e he k (by simp)).trans hkk
      · rcases List.mem_cons.1 he with rfl | he
        · exact hkk
        · exact ih (sortedKeys_cons.1 h2).2 (fun k' hk' => hk k' (by simp [hk'])) e he

/-- The part after a child is above any bound of its keys. -/
theorem back_gt {cs : List (List (κ × β))} {ks : List (κ × β)} {key : κ}
    (hs : SortedKeys (back cs ks)) (hk : ∀ k ∈ ks, key < k.1) : ∀ e ∈ back cs ks, key < e.1 := by
  cases ks with
  | nil => simp [back]
  | cons k ks =>
    rw [back] at hs ⊢
    have hkk := hk k (by simp)
    intro e he
    rcases List.mem_cons.1 he with rfl | he
    · exact hkk
    · exact hkk.trans ((sortedKeys_cons.1 hs).1 e he)

end Weave

/-! ## Subtrees -/

/-- The entries stored in a node. -/
def Node.kvs (n : Node) : List (String × String) := n.keys.zip n.values

/-- One value for each key, and not too many keys. -/
def Node.Ok (n : Node) : Prop := n.values.length = n.keys.length ∧ n.keys.length ≤ MAX_KEYS

/-- The number of keys of the node `id`. -/
def keyCount (nodes : List Node) (id : ℕ) : ℕ := (nodes[id]?.map fun n => n.keys.length).getD 0

/-- The content of the subtree of height `h` at `id`, in key order. -/
def entriesAt (nodes : List Node) : ℕ → ℕ → List (String × String)
  | 0, id => (nodes[id]?.map Node.kvs).getD []
  | h + 1, id =>
    (nodes[id]?.map fun n => weave (n.children.map (entriesAt nodes h)) n.kvs).getD []

/-- The nodes of the subtree of height `h` at `id`. -/
def idsAt (nodes : List Node) : ℕ → ℕ → List ℕ
  | 0, id => [id]
  | h + 1, id => id :: (nodes[id]?.map fun n => n.children.flatMap (idsAt nodes h)).getD []

/-- The node `id` is the root of a well-formed subtree of height `h`: all its leaves are at depth
    `h`, inner nodes have one child more than keys, and nodes below the root are at least half
    full. -/
def Sub (nodes : List Node) : ℕ → ℕ → Prop
  | 0, id => ∃ n, nodes[id]? = some n ∧ n.Ok ∧ n.children = []
  | h + 1, id => ∃ n, nodes[id]? = some n ∧ n.Ok ∧ n.children.length = n.keys.length + 1 ∧
      ∀ c ∈ n.children, Sub nodes h c ∧ MIN_DEGREE - 1 ≤ keyCount nodes c

section Basic
variable {nodes nodes' : List Node} {h id : ℕ} {n : Node}

theorem keyCount_eq (hn : nodes[id]? = some n) : keyCount nodes id = n.keys.length := by
  simp [keyCount, hn]

theorem entriesAt_zero (hn : nodes[id]? = some n) : entriesAt nodes 0 id = n.kvs := by
  simp [entriesAt, hn]

theorem entriesAt_succ (hn : nodes[id]? = some n) :
    entriesAt nodes (h + 1) id = weave (n.children.map (entriesAt nodes h)) n.kvs := by
  simp [entriesAt, hn]

theorem idsAt_succ (hn : nodes[id]? = some n) :
    idsAt nodes (h + 1) id = id :: n.children.flatMap (idsAt nodes h) := by
  simp [idsAt, hn]

theorem mem_idsAt_self : id ∈ idsAt nodes h id := by
  cases h <;> simp [idsAt]

theorem Sub.node (hs : Sub nodes h id) : ∃ n, nodes[id]? = some n ∧ n.Ok := by
  cases h with
  | zero => obtain ⟨n, hn, hok, -⟩ := hs; exact ⟨n, hn, hok⟩
  | succ h => obtain ⟨n, hn, hok, -⟩ := hs; exact ⟨n, hn, hok⟩

theorem Sub.leaf (hs : Sub nodes 0 id) (hn : nodes[id]? = some n) : n.Ok ∧ n.children = [] := by
  obtain ⟨n', hn', hok, hc⟩ := hs
  rw [hn] at hn'; cases hn'
  exact ⟨hok, hc⟩

theorem Sub.inner (hs : Sub nodes (h + 1) id) (hn : nodes[id]? = some n) :
    n.Ok ∧ n.children.length = n.keys.length + 1 ∧
      ∀ c ∈ n.children, Sub nodes h c ∧ MIN_DEGREE - 1 ≤ keyCount nodes c := by
  obtain ⟨n', hn', hok, hc⟩ := hs
  rw [hn] at hn'; cases hn'
  exact ⟨hok, hc⟩

theorem Sub.lt_length (hs : Sub nodes h id) : ∀ j ∈ idsAt nodes h id, j < nodes.length := by
  induction h generalizing id with
  | zero =>
    obtain ⟨n, hn, -⟩ := hs
    intro j hj
    rw [idsAt, List.mem_singleton] at hj
    subst hj
    exact (List.getElem?_eq_some_iff.1 hn).1
  | succ h ih =>
    obtain ⟨n, hn, -, -, hc⟩ := hs
    intro j hj
    rw [idsAt_succ hn] at hj
    rcases List.mem_cons.1 hj with rfl | hj
    · exact (List.getElem?_eq_some_iff.1 hn).1
    · obtain ⟨c, hcm, hjc⟩ := List.mem_flatMap.1 hj
      exact ih (hc c hcm).1 j hjc

/-- A subtree of height `h` has more than `h` nodes. -/
theorem Sub.height_lt (hs : Sub nodes h id) : h < (idsAt nodes h id).length := by
  induction h generalizing id with
  | zero => simp [idsAt]
  | succ h ih =>
    obtain ⟨n, hn, -, hlen, hc⟩ := hs
    rw [idsAt_succ hn]
    obtain ⟨c, cs, hcs⟩ : ∃ c cs, n.children = c :: cs :=
      List.exists_cons_of_length_eq_add_one hlen
    have := ih (hc c (by simp [hcs])).1
    simp only [hcs, List.flatMap_cons, List.length_cons, List.length_append]
    omega

/-- **Frame rule**: a subtree is not affected by changes outside its nodes. -/
theorem Sub.frame (hs : Sub nodes h id) (ha : ∀ j ∈ idsAt nodes h id, nodes'[j]? = nodes[j]?) :
    Sub nodes' h id ∧ entriesAt nodes' h id = entriesAt nodes h id ∧
      idsAt nodes' h id = idsAt nodes h id ∧ keyCount nodes' id = keyCount nodes id := by
  have hself : nodes'[id]? = nodes[id]? := ha id mem_idsAt_self
  have hcount : keyCount nodes' id = keyCount nodes id := by simp [keyCount, hself]
  induction h generalizing id with
  | zero =>
    obtain ⟨n, hn, hok, hc⟩ := hs
    exact ⟨⟨n, hself.trans hn, hok, hc⟩, by simp [entriesAt, hself], rfl, hcount⟩
  | succ h ih =>
    obtain ⟨n, hn, hok, hlen, hc⟩ := hs
    have hn' := hself.trans hn
    have hch : ∀ c ∈ n.children, Sub nodes' h c ∧ entriesAt nodes' h c = entriesAt nodes h c ∧
        idsAt nodes' h c = idsAt nodes h c ∧ keyCount nodes' c = keyCount nodes c := by
      intro c hcm
      have hac : ∀ j ∈ idsAt nodes h c, nodes'[j]? = nodes[j]? := by
        intro j hj
        exact ha j (by rw [idsAt_succ hn]; simp only [List.mem_cons, List.mem_flatMap]; exact Or.inr ⟨c, hcm, hj⟩)
      have hcs := hac c mem_idsAt_self
      exact ih (hc c hcm).1 hac hcs (by simp [keyCount, hcs])
    refine ⟨⟨n, hn', hok, hlen, fun c hcm => ⟨(hch c hcm).1, ?_⟩⟩, ?_, ?_, hcount⟩
    · rw [(hch c hcm).2.2.2]; exact (hc c hcm).2
    · rw [entriesAt_succ hn', entriesAt_succ hn, List.map_congr_left fun c hcm => (hch c hcm).2.1]
    · rw [idsAt_succ hn', idsAt_succ hn, List.flatMap_congr fun c hcm => (hch c hcm).2.2.1]

end Basic

/-! ## Steps on a subtree -/

/-- The arena `nodes` became `nodes'` by an operation on the subtree of height `h` at `id`, whose
    content is now `es`. -/
structure Grown (nodes nodes' : List Node) (h id : ℕ) (es : List (String × String)) : Prop where
  le : nodes.length ≤ nodes'.length
  sub : Sub nodes' h id
  entries : entriesAt nodes' h id = es
  ids : (idsAt nodes' h id).Perm
    (idsAt nodes h id ++ List.range' nodes.length (nodes'.length - nodes.length))
  frame : ∀ j < nodes.length, j ∉ idsAt nodes h id → nodes'[j]? = nodes[j]?
  count : keyCount nodes id ≤ keyCount nodes' id

section Grown
variable {nodes nodes' nodes'' : List Node} {h id : ℕ} {es es' : List (String × String)}

theorem Grown.refl (hs : Sub nodes h id) : Grown nodes nodes h id (entriesAt nodes h id) :=
  ⟨le_rfl, hs, rfl, by simp, fun _ _ _ => rfl, le_rfl⟩

theorem Grown.mem_ids (hg : Grown nodes nodes' h id es) {j : ℕ} :
    j ∈ idsAt nodes' h id ↔ j ∈ idsAt nodes h id ∨ (nodes.length ≤ j ∧ j < nodes'.length) := by
  have hle := hg.le
  rw [hg.ids.mem_iff, List.mem_append, List.mem_range'_1]
  constructor
  · rintro (h | ⟨h1, h2⟩)
    · exact Or.inl h
    · exact Or.inr ⟨h1, by omega⟩
  · rintro (h | ⟨h1, h2⟩)
    · exact Or.inl h
    · exact Or.inr ⟨h1, by omega⟩

theorem Grown.nodup (hg : Grown nodes nodes' h id es) (hs : Sub nodes h id)
    (hnd : (idsAt nodes h id).Nodup) : (idsAt nodes' h id).Nodup := by
  rw [hg.ids.nodup_iff, List.nodup_append']
  refine ⟨hnd, List.nodup_range', fun j hj hj' => ?_⟩
  have h1 := hs.lt_length j hj
  rw [List.mem_range'_1] at hj'
  omega

theorem Grown.trans (h₁ : Grown nodes nodes' h id es) (h₂ : Grown nodes' nodes'' h id es') :
    Grown nodes nodes'' h id es' := by
  have hle₁ := h₁.le
  have hle₂ := h₂.le
  refine ⟨hle₁.trans hle₂, h₂.sub, h₂.entries, ?_, fun j hj hne => ?_, h₁.count.trans h₂.count⟩
  · have hr : List.range' nodes.length (nodes'.length - nodes.length) ++
        List.range' nodes'.length (nodes''.length - nodes'.length) =
        List.range' nodes.length (nodes''.length - nodes.length) := by
      have := List.range'_append_1 (s := nodes.length) (m := nodes'.length - nodes.length)
        (n := nodes''.length - nodes'.length)
      rw [show nodes.length + (nodes'.length - nodes.length) = nodes'.length by omega,
        show nodes'.length - nodes.length + (nodes''.length - nodes'.length) =
          nodes''.length - nodes.length by omega] at this
      exact this
    rw [← hr, ← List.append_assoc]
    exact h₂.ids.trans (h₁.ids.append_right _)
  · rw [h₂.frame j (by omega) fun hm => ?_, h₁.frame j hj hne]
    rcases h₁.mem_ids.1 hm with hm | ⟨hm, -⟩
    · exact hne hm
    · omega

/-- The content of an inner node, seen from one of its children. -/
theorem entriesAt_child {n : Node} {as bs : List ℕ} {c : ℕ} {kv₁ kv₂ : List (String × String)}
    (hn : nodes[id]? = some n) (hcs : n.children = as ++ c :: bs) (hkv : n.kvs = kv₁ ++ kv₂)
    (hl : as.length = kv₁.length) :
    entriesAt nodes (h + 1) id = front (as.map (entriesAt nodes h)) kv₁ ++ entriesAt nodes h c ++
      back (bs.map (entriesAt nodes h)) kv₂ := by
  rw [entriesAt_succ hn, hcs, hkv, List.map_append, List.map_cons, weave_split (by simpa using hl)]

/-- **A step on a child is a step on the parent.** -/
theorem Grown.child {n : Node} {as bs : List ℕ} {c : ℕ} {kv₁ kv₂ : List (String × String)}
    (hs : Sub nodes (h + 1) id) (hnd : (idsAt nodes (h + 1) id).Nodup)
    (hn : nodes[id]? = some n) (hcs : n.children = as ++ c :: bs) (hkv : n.kvs = kv₁ ++ kv₂)
    (hl : as.length = kv₁.length) (hg : Grown nodes nodes' h c es) :
    Grown nodes nodes' (h + 1) id (front (as.map (entriesAt nodes h)) kv₁ ++ es ++
      back (bs.map (entriesAt nodes h)) kv₂) := by
  obtain ⟨hok, hlen, hch⟩ := hs.inner hn
  have hidlt := hs.lt_length id mem_idsAt_self
  rw [idsAt_succ hn, hcs, List.flatMap_append, List.flatMap_cons] at hnd
  -- the parent and the other children lie outside the child's nodes
  have hnd' := List.nodup_cons.1 hnd
  obtain ⟨-, hnd₂, hda⟩ := List.nodup_append'.1 hnd'.2
  obtain ⟨-, -, hdb⟩ := List.nodup_append'.1 hnd₂
  have hidc : id ∉ idsAt nodes h c := fun hm => hnd'.1 (by simp [hm])
  have hn' : nodes'[id]? = some n := (hg.frame id hidlt hidc).trans hn
  have hother : ∀ a ∈ as ++ bs, Sub nodes' h a ∧ entriesAt nodes' h a = entriesAt nodes h a ∧
      idsAt nodes' h a = idsAt nodes h a ∧ keyCount nodes' a = keyCount nodes a := by
    intro a ha
    have ham : a ∈ n.children := by
      rw [hcs]; rcases List.mem_append.1 ha with ha | ha <;> simp [ha]
    have hsa := (hch a ham).1
    refine hsa.frame fun j hj => hg.frame j (hsa.lt_length j hj) fun hjc => ?_
    rcases List.mem_append.1 ha with ha | ha
    · exact hda (List.mem_flatMap.2 ⟨a, ha, hj⟩) (List.mem_append_left _ hjc)
    · exact hdb hjc (List.mem_flatMap.2 ⟨a, ha, hj⟩)
  have hE : ∀ l : List ℕ, (∀ a ∈ l, a ∈ as ++ bs) → l.map (entriesAt nodes' h) = l.map (entriesAt nodes h) :=
    fun l hl => List.map_congr_left fun a ha => (hother a (hl a ha)).2.1
  have hI : ∀ l : List ℕ, (∀ a ∈ l, a ∈ as ++ bs) → l.flatMap (idsAt nodes' h) = l.flatMap (idsAt nodes h) :=
    fun l hl => List.flatMap_congr fun a ha => (hother a (hl a ha)).2.2.1
  refine ⟨hg.le, ⟨n, hn', hok, hlen, fun a ham => ?_⟩, ?_, ?_, fun j hj hne => ?_, ?_⟩
  · rw [hcs] at ham
    by_cases hac : a = c
    · subst hac
      exact ⟨hg.sub, ((hch a (by simp [hcs])).2).trans hg.count⟩
    · have ha : a ∈ as ++ bs := by
        rcases List.mem_append.1 ham with ha | ha
        · simp [ha]
        · rcases List.mem_cons.1 ha with rfl | ha
          · exact absurd rfl hac
          · simp [ha]
      obtain ⟨h1, -, -, h4⟩ := hother a ha
      have ham' : a ∈ n.children := by rw [hcs]; exact ham
      exact ⟨h1, h4 ▸ (hch a ham').2⟩
  · rw [entriesAt_child hn' hcs hkv hl, hg.entries, hE as fun a ha => by simp [ha],
      hE bs fun a ha => by simp [ha]]
  · rw [idsAt_succ hn', idsAt_succ hn, hcs]
    simp only [List.flatMap_append, List.flatMap_cons]
    rw [hI as fun a ha => by simp [ha], hI bs fun a ha => by simp [ha]]
    have := hg.ids
    rw [List.perm_iff_count] at this ⊢
    intro j
    have := this j
    simp only [List.count_append, List.count_cons] at this ⊢
    omega
  · refine hg.frame j hj fun hjc => hne ?_
    rw [idsAt_succ hn, hcs]
    simp [hjc]
  · rw [keyCount_eq hn, keyCount_eq hn']

end Grown

/-! ## Splitting a child -/

/-- What stays of a full node. -/
def Node.lower (m : Node) : Node :=
  ⟨m.keys.take (MIN_DEGREE - 1), m.values.take (MIN_DEGREE - 1), m.children.take MIN_DEGREE⟩

/-- What moves to the new node. -/
def Node.upper (m : Node) : Node :=
  ⟨m.keys.drop MIN_DEGREE, m.values.drop MIN_DEGREE, m.children.drop MIN_DEGREE⟩

theorem popFull_concat {α : Type} (l : List α) (a : α) : popFull (l ++ [a]) = .ok (l, a) := by
  simp [popFull]

/-- A list of at least `MIN_DEGREE` elements around its median. -/
theorem exists_median {α : Type} {l : List α} (hl : MIN_DEGREE ≤ l.length) :
    ∃ a, l = l.take (MIN_DEGREE - 1) ++ a :: l.drop MIN_DEGREE ∧
      popFull (l.take MIN_DEGREE) = .ok (l.take (MIN_DEGREE - 1), a) := by
  have h7 : MIN_DEGREE - 1 < l.length := by simp only [MIN_DEGREE] at *; omega
  have htake : l.take MIN_DEGREE = l.take (MIN_DEGREE - 1) ++ [l[MIN_DEGREE - 1]] :=
    (List.take_append_getElem h7).symm
  refine ⟨l[MIN_DEGREE - 1], ?_, ?_⟩
  · rw [show l.drop MIN_DEGREE = l.drop (MIN_DEGREE - 1 + 1) from rfl, List.getElem_cons_drop,
      List.take_append_drop]
  · rw [htake, popFull_concat]

section Split
variable {nodes nodes' : List Node} {h p c r : ℕ} {m : Node}

theorem Node.kvs_median (hm : m.Ok) (hfull : m.keys.length = MAX_KEYS) :
    ∃ k v, m.keys = m.lower.keys ++ k :: m.upper.keys ∧
      m.values = m.lower.values ++ v :: m.upper.values ∧
      m.kvs = m.lower.kvs ++ (k, v) :: m.upper.kvs ∧
      popFull (m.keys.take MIN_DEGREE) = .ok (m.lower.keys, k) ∧
      popFull (m.values.take MIN_DEGREE) = .ok (m.lower.values, v) := by
  have hk : MIN_DEGREE ≤ m.keys.length := by rw [hfull]; decide
  obtain ⟨k, hk1, hk2⟩ := exists_median hk
  obtain ⟨v, hv1, hv2⟩ := exists_median (l := m.values) (by rw [hm.1]; exact hk)
  refine ⟨k, v, hk1, hv1, ?_, hk2, hv2⟩
  have hlen : m.lower.keys.length = m.lower.values.length := by simp [Node.lower, hm.1]
  calc m.kvs = (m.lower.keys ++ k :: m.upper.keys).zip (m.lower.values ++ v :: m.upper.values) :=
        congrArg₂ List.zip hk1 hv1
    _ = _ := by rw [List.zip_append hlen]; rfl

theorem Node.lower_ok (hm : m.Ok) (hfull : m.keys.length = MAX_KEYS) :
    m.lower.Ok ∧ m.lower.keys.length = MIN_DEGREE - 1 := by
  have hv := hm.1
  simp only [Node.lower, Node.Ok, List.length_take, hv, hfull]
  decide

theorem Node.upper_ok (hm : m.Ok) (hfull : m.keys.length = MAX_KEYS) :
    m.upper.Ok ∧ m.upper.keys.length = MIN_DEGREE - 1 := by
  have hv := hm.1
  simp only [Node.upper, Node.Ok, List.length_drop, hv, hfull]
  decide

/-- The two halves of a full subtree are subtrees, with the median between their contents. -/
theorem halves (hs : Sub nodes h c) (hnd : (idsAt nodes h c).Nodup) (hm : nodes[c]? = some m)
    (hfull : m.keys.length = MAX_KEYS) (hl : nodes'[c]? = some m.lower)
    (hr : nodes'[r]? = some m.upper)
    (hframe : ∀ j ∈ idsAt nodes h c, j ≠ c → nodes'[j]? = nodes[j]?)
    {e : String × String} (hkv : m.kvs = m.lower.kvs ++ e :: m.upper.kvs) :
    Sub nodes' h c ∧ Sub nodes' h r ∧
      entriesAt nodes h c = entriesAt nodes' h c ++ e :: entriesAt nodes' h r ∧
      (idsAt nodes' h c ++ idsAt nodes' h r).Perm (idsAt nodes h c ++ [r]) := by
  obtain ⟨m', hm', hok⟩ := hs.node
  rw [hm] at hm'; cases hm'
  obtain ⟨hlok, hlk⟩ := Node.lower_ok hok hfull
  obtain ⟨hrok, hrk⟩ := Node.upper_ok hok hfull
  cases h with
  | zero =>
    obtain ⟨-, hch⟩ := hs.leaf hm
    refine ⟨⟨_, hl, hlok, by simp [Node.lower, hch]⟩, ⟨_, hr, hrok, by simp [Node.upper, hch]⟩,
      ?_, by simp [idsAt]⟩
    rw [entriesAt_zero hm, entriesAt_zero hl, entriesAt_zero hr, hkv]
  | succ h =>
    obtain ⟨-, hlen, hch⟩ := hs.inner hm
    rw [idsAt_succ hm, List.nodup_cons] at hnd
    -- the grandchildren stay where they are
    have hsame : ∀ g ∈ m.children, Sub nodes' h g ∧ entriesAt nodes' h g = entriesAt nodes h g ∧
        idsAt nodes' h g = idsAt nodes h g ∧ keyCount nodes' g = keyCount nodes g := by
      intro g hg
      refine (hch g hg).1.frame fun j hj => hframe j ?_ ?_
      · rw [idsAt_succ hm]; exact List.mem_cons_of_mem _ (List.mem_flatMap.2 ⟨g, hg, hj⟩)
      · rintro rfl; exact hnd.1 (List.mem_flatMap.2 ⟨g, hg, hj⟩)
    have hE : ∀ l : List ℕ, (∀ g ∈ l, g ∈ m.children) →
        l.map (entriesAt nodes' h) = l.map (entriesAt nodes h) :=
      fun l hl => List.map_congr_left fun g hg => (hsame g (hl g hg)).2.1
    have hI : ∀ l : List ℕ, (∀ g ∈ l, g ∈ m.children) →
        l.flatMap (idsAt nodes' h) = l.flatMap (idsAt nodes h) :=
      fun l hl => List.flatMap_congr fun g hg => (hsame g (hl g hg)).2.2.1
    have hlow : ∀ g ∈ m.lower.children, g ∈ m.children := fun g hg => List.mem_of_mem_take hg
    have hupp : ∀ g ∈ m.upper.children, g ∈ m.children := fun g hg => List.mem_of_mem_drop hg
    have hsplit : m.children = m.lower.children ++ m.upper.children :=
      (List.take_append_drop _ _).symm
    have hsub : ∀ g ∈ m.children, Sub nodes' h g ∧ MIN_DEGREE - 1 ≤ keyCount nodes' g := by
      intro g hg
      obtain ⟨h1, -, -, h4⟩ := hsame g hg
      exact ⟨h1, h4 ▸ (hch g hg).2⟩
    have hll : m.lower.children.length = m.lower.keys.length + 1 := by
      rw [hlk]; simp only [Node.lower, List.length_take, hlen, hfull]; decide
    have hrl : m.upper.children.length = m.upper.keys.length + 1 := by
      rw [hrk]; simp only [Node.upper, List.length_drop, hlen, hfull]; decide
    refine ⟨⟨_, hl, hlok, hll, fun g hg => hsub g (hlow g hg)⟩,
      ⟨_, hr, hrok, hrl, fun g hg => hsub g (hupp g hg)⟩, ?_, ?_⟩
    · have hkl : m.lower.kvs.length = m.lower.keys.length := by simp [Node.kvs, hlok.1]
      rw [entriesAt_succ hm, entriesAt_succ hl, entriesAt_succ hr, hE _ hlow, hE _ hupp, hkv, hsplit,
        List.map_append, weave_median (by rw [List.length_map, hll, hkl])]
    · rw [idsAt_succ hm, idsAt_succ hl, idsAt_succ hr, hI _ hlow, hI _ hupp, hsplit,
        List.flatMap_append, List.perm_iff_count]
      intro j
      simp only [List.count_append, List.count_cons, List.count_nil]
      omega

/-- The arena after a split: the child keeps the lower half, the upper half is pushed, and the
    parent gets the median and the new child. -/
def splitArena (nodes : List Node) (p c : ℕ) (m parent : Node) : List Node :=
  ((nodes.set c m.lower) ++ [m.upper]).set p parent

section Arena
variable {parent : Node}

@[simp] theorem length_splitArena :
    (splitArena nodes p c m parent).length = nodes.length + 1 := by
  simp [splitArena]

theorem splitArena_parent (c : ℕ) (m parent : Node) (hp : p < nodes.length) :
    (splitArena nodes p c m parent)[p]? = some parent := by
  rw [splitArena, List.getElem?_set_self (by simp; omega)]

theorem splitArena_child (m parent : Node) (hc : c < nodes.length) (hpc : p ≠ c) :
    (splitArena nodes p c m parent)[c]? = some m.lower := by
  rw [splitArena, List.getElem?_set_ne hpc, List.getElem?_append_left (by simpa using hc),
    List.getElem?_set_self hc]

theorem splitArena_new (c : ℕ) (m parent : Node) (hp : p < nodes.length) :
    (splitArena nodes p c m parent)[nodes.length]? = some m.upper := by
  rw [splitArena, List.getElem?_set_ne (by omega), List.getElem?_append_right (by simp)]
  simp

theorem splitArena_other {j : ℕ} (hj : j < nodes.length) (hjp : j ≠ p) (hjc : j ≠ c) :
    (splitArena nodes p c m parent)[j]? = nodes[j]? := by
  rw [splitArena, List.getElem?_set_ne (Ne.symm hjp), List.getElem?_append_left (by simpa using hj),
    List.getElem?_set_ne (Ne.symm hjc)]

end Arena

variable {n : Node} {as bs : List ℕ} {ks₁ ks₂ vs₁ vs₂ : List String} {k v : String}

/-- What `splitChild` computes. -/
theorem splitChild_eq (hn : nodes[p]? = some n) (hm : nodes[c]? = some m) (hpc : p ≠ c)
    (hcs : n.children = as ++ c :: bs) (hks : n.keys = ks₁ ++ ks₂) (hvs : n.values = vs₁ ++ vs₂)
    (hl : as.length = ks₁.length) (hv : vs₁.length = ks₁.length)
    (hpk : popFull (m.keys.take MIN_DEGREE) = .ok (m.lower.keys, k))
    (hpv : popFull (m.values.take MIN_DEGREE) = .ok (m.lower.values, v))
    (hk8 : MIN_DEGREE ≤ m.keys.length) (hv8 : MIN_DEGREE ≤ m.values.length)
    (hc8 : m.children = [] ∨ MIN_DEGREE ≤ m.children.length) :
    splitChild nodes p as.length = .ok (splitArena nodes p c m
      ⟨ks₁ ++ k :: ks₂, vs₁ ++ v :: vs₂, as ++ c :: nodes.length :: bs⟩) := by
  have hplt : p < nodes.length := (List.getElem?_eq_some_iff.1 hn).1
  have hclt : c < nodes.length := (List.getElem?_eq_some_iff.1 hm).1
  have hchild : Res.get n.children as.length = .ok c := by
    rw [hcs]; exact Res.get_append_cons as bs c
  have hchildren : splitChildren m = .ok (m.lower.children, m.upper.children) := by
    rcases hc8 with hc8 | hc8
    · simp [splitChildren, Node.leaf, Node.lower, Node.upper, hc8]
    · have : m.leaf = false := by
        rw [Node.leaf, List.isEmpty_eq_false_iff, ← List.length_pos_iff]
        exact lt_of_lt_of_le (by decide) hc8
      rw [splitChildren, this, Res.splitOff, if_pos hc8]; rfl
  have hparent : (nodes.set c m.lower ++ [m.upper])[p]? = some n := by
    rw [List.getElem?_append_left (by simpa using hplt), List.getElem?_set_ne (Ne.symm hpc), hn]
  have hck : Res.insertAt n.keys as.length k = .ok (ks₁ ++ k :: ks₂) := by
    rw [hks, hl, Res.insertAt_length]
  have hcv : Res.insertAt n.values as.length v = .ok (vs₁ ++ v :: vs₂) := by
    rw [hvs, hl, ← hv, Res.insertAt_length]
  have hcc : Res.insertAt n.children (as.length + 1) nodes.length =
      .ok (as ++ c :: nodes.length :: bs) := by
    have := Res.insertAt_length (as ++ [c]) bs nodes.length
    rw [hcs]
    simpa using this
  have hsk : Res.splitOff m.keys MIN_DEGREE = .ok (m.keys.take MIN_DEGREE, m.upper.keys) :=
    if_pos hk8
  have hsv : Res.splitOff m.values MIN_DEGREE = .ok (m.values.take MIN_DEGREE, m.upper.values) :=
    if_pos hv8
  simp only [splitChild, Res.get_of_getElem? hn, Res.ok_bind, hchild, Res.get_of_getElem? hm, hsk,
    hpk, hsv, hpv, hchildren, Res.setAt_of_lt hclt]
  simp only [List.length_append, List.length_set, List.length_singleton, Nat.add_sub_cancel,
    Res.get_of_getElem? hparent, Res.ok_bind, hck, hcv, hcc]
  exact Res.setAt_of_lt (by simp; omega)

/-- **`splitChild` keeps the content**: the full child becomes two children of
    `MIN_DEGREE - 1` keys. -/
theorem splitChild_spec (hs : Sub nodes (h + 1) p) (hnd : (idsAt nodes (h + 1) p).Nodup)
    (hn : nodes[p]? = some n) (hcs : n.children = as ++ c :: bs) (hks : n.keys = ks₁ ++ ks₂)
    (hvs : n.values = vs₁ ++ vs₂) (hl : as.length = ks₁.length) (hv : vs₁.length = ks₁.length)
    (hroom : n.keys.length < MAX_KEYS) (hfull : keyCount nodes c = MAX_KEYS) :
    ∃ nodes' k v, splitChild nodes p as.length = .ok nodes' ∧
      Grown nodes nodes' (h + 1) p (entriesAt nodes (h + 1) p) ∧
      nodes'[p]? = some ⟨ks₁ ++ k :: ks₂, vs₁ ++ v :: vs₂, as ++ c :: nodes.length :: bs⟩ ∧
      keyCount nodes' c = MIN_DEGREE - 1 ∧ keyCount nodes' nodes.length = MIN_DEGREE - 1 := by
  obtain ⟨hok, hlen, hch⟩ := hs.inner hn
  obtain ⟨hcsub, -⟩ := hch c (by simp [hcs])
  obtain ⟨m, hm, hmok⟩ := hcsub.node
  rw [keyCount_eq hm] at hfull
  obtain ⟨k, v, hmk, hmv, hmkv, hpk, hpv⟩ := Node.kvs_median hmok hfull
  have hplt : p < nodes.length := (List.getElem?_eq_some_iff.1 hn).1
  have hclt : c < nodes.length := (List.getElem?_eq_some_iff.1 hm).1
  have hids := idsAt_succ (h := h) hn
  rw [hcs, List.flatMap_append, List.flatMap_cons] at hids
  rw [hids] at hnd
  obtain ⟨hpn, hnd'⟩ := List.nodup_cons.1 hnd
  obtain ⟨-, hnd₂, hda⟩ := List.nodup_append'.1 hnd'
  obtain ⟨hndc, -, hdb⟩ := List.nodup_append'.1 hnd₂
  have hpc : p ≠ c := by rintro rfl; exact hpn (by simp [mem_idsAt_self])
  have hk8 : MIN_DEGREE ≤ m.keys.length := by rw [hfull]; decide
  have hc8 : m.children = [] ∨ MIN_DEGREE ≤ m.children.length := by
    cases h with
    | zero => exact Or.inl (hcsub.leaf hm).2
    | succ h => exact Or.inr (by rw [(hcsub.inner hm).2.1]; omega)
  have heq := splitChild_eq hn hm hpc hcs hks hvs hl hv hpk hpv hk8 (hmok.1 ▸ hk8) hc8
  obtain ⟨parent, hparent⟩ :
    ∃ P : Node, P = ⟨ks₁ ++ k :: ks₂, vs₁ ++ v :: vs₂, as ++ c :: nodes.length :: bs⟩ := ⟨_, rfl⟩
  have hPk : parent.keys = ks₁ ++ k :: ks₂ := by rw [hparent]
  have hPv : parent.values = vs₁ ++ v :: vs₂ := by rw [hparent]
  have hPc : parent.children = as ++ c :: nodes.length :: bs := by rw [hparent]
  rw [← hparent] at heq
  have hp' := splitArena_parent c m parent hplt
  have hl' := splitArena_child m parent hclt hpc
  have hr' := splitArena_new c m parent hplt
  refine ⟨_, k, v, heq, ?_, hparent ▸ hp', ?_, ?_⟩
  · -- the two halves, and the other children, which do not change
    obtain ⟨hsl, hsr, hent, hperm⟩ := halves hcsub hndc hm hfull hl' hr' (fun j hj hjc =>
      splitArena_other (hcsub.lt_length j hj) (by rintro rfl; exact hpn (by simp [hj])) hjc) hmkv
    have hother : ∀ a ∈ as ++ bs, Sub (splitArena nodes p c m parent) h a ∧
        entriesAt (splitArena nodes p c m parent) h a = entriesAt nodes h a ∧
        idsAt (splitArena nodes p c m parent) h a = idsAt nodes h a ∧
        keyCount (splitArena nodes p c m parent) a = keyCount nodes a := by
      intro a ha
      have hsa := (hch a (by rw [hcs]; rcases List.mem_append.1 ha with ha | ha <;> simp [ha])).1
      refine hsa.frame fun j hj => splitArena_other (hsa.lt_length j hj) ?_ ?_
      · rintro rfl
        refine hpn ?_
        rcases List.mem_append.1 ha with ha | ha
        · exact List.mem_append_left _ (List.mem_flatMap.2 ⟨a, ha, hj⟩)
        · exact List.mem_append_right _ (List.mem_append_right _ (List.mem_flatMap.2 ⟨a, ha, hj⟩))
      · rintro rfl
        rcases List.mem_append.1 ha with ha | ha
        · exact hda (List.mem_flatMap.2 ⟨a, ha, hj⟩) (List.mem_append_left _ mem_idsAt_self)
        · exact hdb mem_idsAt_self (List.mem_flatMap.2 ⟨a, ha, hj⟩)
    have hE : ∀ l : List ℕ, (∀ a ∈ l, a ∈ as ++ bs) →
        l.map (entriesAt (splitArena nodes p c m parent) h) = l.map (entriesAt nodes h) :=
      fun l hl => List.map_congr_left fun a ha => (hother a (hl a ha)).2.1
    have hI : ∀ l : List ℕ, (∀ a ∈ l, a ∈ as ++ bs) →
        l.flatMap (idsAt (splitArena nodes p c m parent) h) = l.flatMap (idsAt nodes h) :=
      fun l hl => List.flatMap_congr fun a ha => (hother a (hl a ha)).2.2.1
    have hpok : parent.Ok := by
      have h1 := hok.1
      rw [hks, hvs] at h1
      rw [hks] at hroom
      simp only [Node.Ok, hPk, hPv, List.length_append, List.length_cons] at h1 hroom ⊢
      omega
    refine ⟨by simp, ⟨parent, hp', hpok, ?_, fun a ha => ?_⟩, ?_, ?_, fun j hj hne => ?_, ?_⟩
    · rw [hcs, hks] at hlen
      simp only [hPk, hPc, List.length_append, List.length_cons] at hlen ⊢
      omega
    · have : a ∈ as ++ bs ∨ a = c ∨ a = nodes.length := by
        simp only [hPc, List.mem_append, List.mem_cons] at ha ⊢; tauto
      rcases this with ha | rfl | rfl
      · obtain ⟨h1, -, -, h4⟩ := hother a ha
        refine ⟨h1, h4 ▸ (hch a ?_).2⟩
        rw [hcs]; rcases List.mem_append.1 ha with ha | ha <;> simp [ha]
      · exact ⟨hsl, by rw [keyCount_eq hl', (Node.lower_ok hmok hfull).2]⟩
      · exact ⟨hsr, by rw [keyCount_eq hr', (Node.upper_ok hmok hfull).2]⟩
    · have hkv : n.kvs = ks₁.zip vs₁ ++ ks₂.zip vs₂ := by
        rw [Node.kvs, hks, hvs, List.zip_append hv.symm]
      have hpkv : parent.kvs = ks₁.zip vs₁ ++ (k, v) :: ks₂.zip vs₂ := by
        rw [Node.kvs, hPk, hPv, List.zip_append hv.symm]; rfl
      have hzl : as.length = (ks₁.zip vs₁).length := by rw [List.length_zip]; omega
      rw [entriesAt_child hn hcs hkv hzl, entriesAt_child hp' hPc hpkv hzl,
        hE as fun a ha => by simp [ha], hent, List.map_cons, back_cons, weave_cons,
        hE bs fun a ha => by simp [ha]]
      simp only [List.append_assoc, List.cons_append]
    · rw [idsAt_succ hp', hids]
      simp only [hPc, List.flatMap_append, List.flatMap_cons]
      rw [hI as fun a ha => by simp [ha], hI bs fun a ha => by simp [ha]]
      rw [List.perm_iff_count] at hperm ⊢
      intro j
      have := hperm j
      have hr1 : List.range' nodes.length (nodes.length + 1 - nodes.length) = [nodes.length] := by
        rw [Nat.add_sub_cancel_left]; rfl
      simp only [List.count_append, List.count_cons, length_splitArena, hr1] at this ⊢
      omega
    · refine splitArena_other hj ?_ ?_
      · rintro rfl; exact hne mem_idsAt_self
      · rintro rfl; exact hne (by rw [hids]; simp [mem_idsAt_self])
    · rw [keyCount_eq hn, keyCount_eq hp', hks, hPk]
      simp
  · rw [keyCount_eq hl', (Node.lower_ok hmok hfull).2]
  · rw [keyCount_eq hr', (Node.upper_ok hmok hfull).2]

end Split

/-! ## Searching -/

/-- The content of a node over its children's subtrees. -/
def Node.content (nodes : List Node) (n : Node) : ℕ → List (String × String)
  | 0 => n.kvs
  | h + 1 => weave (n.children.map (entriesAt nodes h)) n.kvs

section Search
variable {nodes : List Node} {h id : ℕ} {n : Node} {ks₁ ks₂ vs₁ vs₂ : List String} {key : String}

theorem entriesAt_eq (hn : nodes[id]? = some n) : entriesAt nodes h id = n.content nodes h := by
  cases h with
  | zero => exact entriesAt_zero hn
  | succ h => exact entriesAt_succ hn

/-- The keys of a node are among those of its subtree, in order. -/
theorem Sub.kvs_sublist (hs : Sub nodes h id) (hn : nodes[id]? = some n) :
    n.kvs.Sublist (entriesAt nodes h id) := by
  cases h with
  | zero => rw [entriesAt_zero hn]
  | succ h =>
    obtain ⟨hok, hlen, -⟩ := hs.inner hn
    rw [entriesAt_succ hn]
    exact sublist_weave (by simp [Node.kvs, hok.1, hlen])

theorem Node.kvs_append (hk : n.keys = ks₁ ++ ks₂) (hv : n.values = vs₁ ++ vs₂)
    (hl : vs₁.length = ks₁.length) : n.kvs = ks₁.zip vs₁ ++ ks₂.zip vs₂ := by
  rw [Node.kvs, hk, hv, List.zip_append hl.symm]

theorem mem_zip_left {l₁ l₂ : List String} {e : String × String} (h : e ∈ l₁.zip l₂) : e.1 ∈ l₁ :=
  (List.of_mem_zip h).1

/-- The values of a node, split where its keys are. -/
theorem Node.Ok.split_values (hok : n.Ok) (hk : n.keys = ks₁ ++ ks₂) :
    ∃ vs₁ vs₂, n.values = vs₁ ++ vs₂ ∧ vs₁.length = ks₁.length ∧ vs₂.length = ks₂.length := by
  have h1 := hok.1
  rw [hk, List.length_append] at h1
  exact ⟨n.values.take ks₁.length, n.values.drop ks₁.length, (List.take_append_drop _ _).symm,
    by simp; omega, by simp; omega⟩

/-- What a search in a node of a sorted subtree finds. -/
theorem Sub.search (hs : Sub nodes h id) (hn : nodes[id]? = some n)
    (hsorted : SortedKeys (entriesAt nodes h id)) (key : String) :
    (∃ ks₁ ks₂ vs₁ vs₂ v, n.keys = ks₁ ++ key :: ks₂ ∧ n.values = vs₁ ++ v :: vs₂ ∧
      vs₁.length = ks₁.length ∧ binarySearch n.keys key = .ok ks₁.length) ∨
    (∃ ks₁ ks₂ vs₁ vs₂, n.keys = ks₁ ++ ks₂ ∧ n.values = vs₁ ++ vs₂ ∧ vs₁.length = ks₁.length ∧
      binarySearch n.keys key = .error ks₁.length ∧ (∀ x ∈ ks₁, x < key) ∧ ∀ x ∈ ks₂, key < x) := by
  obtain ⟨n', hn', hok⟩ := hs.node
  rw [hn] at hn'; cases hn'
  have hkeys : n.keys.Pairwise (· < ·) := by
    have h1 : SortedKeys n.kvs := List.Pairwise.sublist (hs.kvs_sublist hn) hsorted
    have h2 : n.kvs.map Prod.fst = n.keys := List.map_fst_zip (by rw [hok.1])
    rw [← h2, List.pairwise_map]
    exact h1
  rcases binarySearch_spec key hkeys with ⟨ks₁, ks₂, hk, hb⟩ | ⟨ks₁, ks₂, hk, hb, h1, h2⟩
  · obtain ⟨vs₁, vs₂, hv, hl₁, hl₂⟩ := hok.split_values hk
    obtain ⟨v, vs₂, rfl⟩ := List.exists_cons_of_length_eq_add_one hl₂
    exact Or.inl ⟨ks₁, ks₂, vs₁, vs₂, v, hk, hv, hl₁, hb⟩
  · obtain ⟨vs₁, vs₂, hv, hl₁, -⟩ := hok.split_values hk
    exact Or.inr ⟨ks₁, ks₂, vs₁, vs₂, hk, hv, hl₁, hb, h1, h2⟩

/-- **Descent**: the child to go on with holds everything that the key can be compared equal to,
    and a step on it is a step on the node. -/
theorem Sub.descend (hs : Sub nodes (h + 1) id) (hnd : (idsAt nodes (h + 1) id).Nodup)
    (hsorted : SortedKeys (entriesAt nodes (h + 1) id)) (hn : nodes[id]? = some n)
    (hk : n.keys = ks₁ ++ ks₂) (h₁ : ∀ x ∈ ks₁, x < key) (h₂ : ∀ x ∈ ks₂, key < x) :
    ∃ c F B, Res.get n.children ks₁.length = .ok c ∧ Sub nodes h c ∧ (idsAt nodes h c).Nodup ∧
      SortedKeys (entriesAt nodes h c) ∧ entriesAt nodes (h + 1) id = F ++ entriesAt nodes h c ++ B ∧
      (∀ e ∈ F, e.1 < key) ∧ (∀ e ∈ B, key < e.1) ∧
      ∀ nodes' es, Grown nodes nodes' h c es → Grown nodes nodes' (h + 1) id (F ++ es ++ B) := by
  obtain ⟨hok, hlen, hch⟩ := hs.inner hn
  obtain ⟨vs₁, vs₂, hv, hl, -⟩ := hok.split_values hk
  have hkv := Node.kvs_append hk hv hl
  rw [hk, List.length_append] at hlen
  obtain ⟨c, bs, hcb⟩ : ∃ c bs, n.children.drop ks₁.length = c :: bs :=
    List.exists_cons_of_length_pos (by simp; omega)
  obtain ⟨as, has⟩ : ∃ as, as = n.children.take ks₁.length := ⟨_, rfl⟩
  have hcs : n.children = as ++ c :: bs := by rw [has, ← hcb, List.take_append_drop]
  have hal : as.length = ks₁.length := by rw [has]; simp; omega
  have hzl : as.length = (ks₁.zip vs₁).length := by rw [hal, List.length_zip]; omega
  have hent := entriesAt_child (h := h) hn hcs hkv hzl
  rw [hent] at hsorted
  obtain ⟨hs₁, hs₂, -⟩ := sortedKeys_append.1 hsorted
  obtain ⟨hsf, hsc, -⟩ := sortedKeys_append.1 hs₁
  have hndc : (idsAt nodes h c).Nodup := by
    rw [idsAt_succ hn, hcs, List.flatMap_append, List.flatMap_cons, List.nodup_cons] at hnd
    exact (List.nodup_append'.1 (List.nodup_append'.1 hnd.2).2.1).1
  refine ⟨c, _, _, ?_, (hch c (by simp [hcs])).1, hndc, hsc, hent,
    front_lt hsf fun e he => h₁ _ (mem_zip_left he), back_gt hs₂ fun e he => h₂ _ (mem_zip_left he),
    fun nodes' es hg => hg.child hs hnd hn hcs hkv hzl⟩
  rw [hcs, ← hal, Res.get_append_cons]

theorem Sub.not_leaf (hs : Sub nodes (h + 1) id) (hn : nodes[id]? = some n) : n.leaf = false := by
  have := (hs.inner hn).2.1
  rw [Node.leaf, List.isEmpty_eq_false_iff, ← List.length_pos_iff]
  omega

theorem Sub.is_leaf (hs : Sub nodes 0 id) (hn : nodes[id]? = some n) : n.leaf = true := by
  simp [Node.leaf, (hs.leaf hn).2]

/-- A key of the node is looked up in the subtree. -/
theorem Sub.lookup_found {v : String} (hs : Sub nodes h id) (hn : nodes[id]? = some n)
    (hsorted : SortedKeys (entriesAt nodes h id)) (hk : n.keys = ks₁ ++ key :: ks₂)
    (hv : n.values = vs₁ ++ v :: vs₂) (hl : vs₁.length = ks₁.length) :
    (entriesAt nodes h id).lookup key = some v := by
  refine lookup_of_mem hsorted ((hs.kvs_sublist hn).subset ?_)
  rw [Node.kvs_append hk hv hl]
  simp

/-- A key that is not in a leaf. -/
theorem lookup_leaf (hn : nodes[id]? = some n) (hk : n.keys = ks₁ ++ ks₂)
    (hv : n.values = vs₁ ++ vs₂) (hl : vs₁.length = ks₁.length) (h₁ : ∀ x ∈ ks₁, x < key)
    (h₂ : ∀ x ∈ ks₂, key < x) : (entriesAt nodes 0 id).lookup key = none := by
  rw [entriesAt_zero hn, Node.kvs_append hk hv hl, lookup_none_iff]
  intro e he
  rcases List.mem_append.1 he with he | he
  · exact (h₁ _ (mem_zip_left he)).ne
  · exact (h₂ _ (mem_zip_left he)).ne'

/-- A key that is in the node. -/
theorem getFrom_found {v : String} {depth : ℕ} (hs : Sub nodes h id) (hn : nodes[id]? = some n)
    (hsorted : SortedKeys (entriesAt nodes h id)) (hk : n.keys = ks₁ ++ key :: ks₂)
    (hv : n.values = vs₁ ++ v :: vs₂) (hl : vs₁.length = ks₁.length)
    (hb : binarySearch n.keys key = .ok ks₁.length) :
    getFrom nodes (depth + 1) id key = .ok ((entriesAt nodes h id).lookup key) := by
  have hval : Res.get n.values ks₁.length = .ok v := by rw [hv, ← hl, Res.get_append_cons]
  rw [getFrom, Res.get_of_getElem? hn]
  simp only [Res.ok_bind, hb, hval, hs.lookup_found hn hsorted hk hv hl, Res.pure_eq]

/-- **`get_from` looks the key up in the content.** -/
theorem getFrom_spec {depth : ℕ} (hs : Sub nodes h id) (hnd : (idsAt nodes h id).Nodup)
    (hsorted : SortedKeys (entriesAt nodes h id)) (hd : h < depth) :
    getFrom nodes depth id key = .ok ((entriesAt nodes h id).lookup key) := by
  induction h generalizing id depth with
  | zero =>
    obtain ⟨depth, rfl⟩ : ∃ d, depth = d + 1 := ⟨depth - 1, by omega⟩
    obtain ⟨n, hn, -⟩ := hs.node
    rcases hs.search hn hsorted key with
      ⟨ks₁, ks₂, vs₁, vs₂, v, hk, hv, hl, hb⟩ | ⟨ks₁, ks₂, vs₁, vs₂, hk, hv, hl, hb, h₁, h₂⟩
    · exact getFrom_found hs hn hsorted hk hv hl hb
    · rw [getFrom, Res.get_of_getElem? hn]
      simp only [Res.ok_bind, hb, hs.is_leaf hn, lookup_leaf hn hk hv hl h₁ h₂, Res.pure_eq, if_true]
  | succ h ih =>
    obtain ⟨depth, rfl⟩ : ∃ d, depth = d + 1 := ⟨depth - 1, by omega⟩
    obtain ⟨n, hn, -⟩ := hs.node
    rcases hs.search hn hsorted key with
      ⟨ks₁, ks₂, vs₁, vs₂, v, hk, hv, hl, hb⟩ | ⟨ks₁, ks₂, vs₁, vs₂, hk, hv, hl, hb, h₁, h₂⟩
    · exact getFrom_found hs hn hsorted hk hv hl hb
    · obtain ⟨c, F, B, hget, hsc, hndc, hsortc, hent, hF, hB, -⟩ :=
        hs.descend hnd hsorted hn hk h₁ h₂
      rw [getFrom, Res.get_of_getElem? hn]
      simp only [Res.ok_bind, hb, hs.not_leaf hn, hget, hent, lookup_between hF hB]
      exact ih hsc hndc hsortc (by omega)

end Search

end BTree

end NutDb
