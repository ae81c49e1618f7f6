/-
  The size of the B-tree index.

  A node with `k` keys has `k + 1` children, each with at least `MIN_DEGREE - 1`
  and at most `MAX_KEYS` keys, so the content of a tree grows exponentially with
  its height.  A search visits one node on each level.
-/
import NutDb.BTreeRuns
import NutDb.BTreeShape
import Mathlib.Data.Nat.Log

namespace NutDb

open Lib

namespace BTree

section Size
variable {nodes : List Node} {h id : ℕ} {n : Node}

/-- The content of an inner node, counted child by child. -/
theorem length_entriesAt_succ (hs : Sub nodes (h + 1) id) (hn : nodes[id]? = some n) :
    (entriesAt nodes (h + 1) id).length + 1 =
      (n.children.map fun c => (entriesAt nodes h c).length + 1).sum := by
  obtain ⟨hok, hlen, -⟩ := hs.inner hn
  have hkvs : n.kvs.length = n.keys.length := by rw [Node.kvs, List.length_zip, hok.1, Nat.min_self]
  rw [entriesAt_succ hn, length_weave (by rw [List.length_map, hkvs, hlen]), hkvs, List.map_map]
  have hsum : ∀ cs : List ℕ, (cs.map fun c => (entriesAt nodes h c).length + 1).sum =
      (cs.map (List.length ∘ entriesAt nodes h)).sum + cs.length := by
    intro cs
    induction cs with
    | nil => rfl
    | cons c cs ih =>
      rw [List.map_cons, List.sum_cons, ih, List.map_cons, List.sum_cons, List.length_cons, Function.comp_apply]
      omega
  rw [hsum, hlen]
  omega

/-- A sum of as many terms, each within bounds. -/
theorem sum_map_bounds {f : ℕ → ℕ} {a b : ℕ} {cs : List ℕ} (ha : ∀ c ∈ cs, a ≤ f c) (hb : ∀ c ∈ cs, f c ≤ b) :
    cs.length * a ≤ (cs.map f).sum ∧ (cs.map f).sum ≤ cs.length * b := by
  constructor
  · have := List.card_nsmul_le_sum (cs.map f) a fun x hx => by
      obtain ⟨c, hc, rfl⟩ := List.mem_map.1 hx
      exact ha c hc
    rwa [List.length_map, smul_eq_mul] at this
  · have := List.sum_le_card_nsmul (cs.map f) b fun x hx => by
      obtain ⟨c, hc, rfl⟩ := List.mem_map.1 hx
      exact hb c hc
    rwa [List.length_map, smul_eq_mul] at this

/-- **The content of a subtree**, from its height and the number of keys of its root. -/
theorem Sub.length_bounds (hs : Sub nodes h id) :
    MIN_DEGREE ^ h * (keyCount nodes id + 1) ≤ (entriesAt nodes h id).length + 1 ∧
      (entriesAt nodes h id).length + 1 ≤ (MAX_KEYS + 1) ^ h * (keyCount nodes id + 1) := by
  induction h generalizing id with
  | zero =>
    obtain ⟨n, hn, hok, -⟩ := hs
    have hlen : (entriesAt nodes 0 id).length = n.keys.length := by
      rw [entriesAt_zero hn, Node.kvs, List.length_zip, hok.1, Nat.min_self]
    rw [hlen, keyCount_eq hn]
    simp
  | succ h ih =>
    obtain ⟨n, hn, -⟩ := hs.node
    obtain ⟨-, hlen, hc⟩ := hs.inner hn
    have hle : ∀ c ∈ n.children, keyCount nodes c ≤ MAX_KEYS := by
      intro c hcm
      obtain ⟨m, hm, hok⟩ := (hc c hcm).1.node
      rw [keyCount_eq hm]
      exact hok.2
    obtain ⟨h1, h2⟩ := sum_map_bounds (f := fun c => (entriesAt nodes h c).length + 1)
      (a := MIN_DEGREE ^ (h + 1)) (b := (MAX_KEYS + 1) ^ (h + 1))
      (fun c hcm => by
        refine le_trans ?_ (ih (hc c hcm).1).1
        rw [pow_succ]
        have := (hc c hcm).2
        have hdeg : MIN_DEGREE = 8 := rfl
        exact Nat.mul_le_mul_left _ (by omega))
      (fun c hcm => by
        refine (ih (hc c hcm).1).2.trans ?_
        rw [pow_succ]
        exact Nat.mul_le_mul_left _ (Nat.succ_le_succ (hle c hcm)))
    rw [length_entriesAt_succ hs hn, keyCount_eq hn, ← hlen, Nat.mul_comm, Nat.mul_comm _ n.children.length]
    exact ⟨h1, h2⟩

/-- **The nodes of a subtree**, from its content. -/
theorem Sub.nodes_bounds (hs : Sub nodes h id) :
    (MIN_DEGREE - 1) * ((idsAt nodes h id).length - 1) + keyCount nodes id ≤ (entriesAt nodes h id).length ∧
      (entriesAt nodes h id).length ≤ MAX_KEYS * (idsAt nodes h id).length := by
  have hdeg : MIN_DEGREE = 8 := rfl
  have hmax : MAX_KEYS = 15 := rfl
  induction h generalizing id with
  | zero =>
    obtain ⟨n, hn, hok, -⟩ := hs
    have hlen : (entriesAt nodes 0 id).length = n.keys.length := by
      rw [entriesAt_zero hn, Node.kvs, List.length_zip, hok.1, Nat.min_self]
    have := hok.2
    rw [hlen, keyCount_eq hn]
    simp [idsAt]
    omega
  | succ h ih =>
    obtain ⟨n, hn, hok⟩ := hs.node
    obtain ⟨-, hlen, hc⟩ := hs.inner hn
    have hkeys := hok.2
    have hsum : ∀ cs : List ℕ, (∀ c ∈ cs, Sub nodes h c ∧ MIN_DEGREE - 1 ≤ keyCount nodes c) →
        (MIN_DEGREE - 1) * (cs.flatMap (idsAt nodes h)).length + cs.length ≤
            (cs.map fun c => (entriesAt nodes h c).length + 1).sum ∧
          (cs.map fun c => (entriesAt nodes h c).length + 1).sum ≤
            MAX_KEYS * (cs.flatMap (idsAt nodes h)).length + cs.length := by
      intro cs hcs
      induction cs with
      | nil => simp
      | cons c cs ihcs =>
        obtain ⟨hsub, hcount⟩ := hcs c List.mem_cons_self
        obtain ⟨h1, h2⟩ := ih hsub
        obtain ⟨h3, h4⟩ := ihcs fun c' hc' => hcs c' (List.mem_cons_of_mem _ hc')
        have hpos : 0 < (idsAt nodes h c).length := List.length_pos_of_mem mem_idsAt_self
        rw [List.flatMap_cons, List.length_append, List.map_cons, List.sum_cons, List.length_cons]
        rw [hdeg, hmax] at *
        constructor
        · omega
        · omega
    obtain ⟨h1, h2⟩ := hsum n.children hc
    have hentries := length_entriesAt_succ hs hn
    rw [idsAt_succ hn, List.length_cons, keyCount_eq hn]
    rw [hdeg, hmax] at *
    constructor
    · omega
    · omega

end Size

end BTree

namespace BTreeIndex
open BTree

/-- **The index is balanced and compact** after every run: its height is logarithmic in the number of
    entries, a search needs as many nested calls as there are levels, and all nodes but the root are
    at least half full. -/
theorem index_size (ops : List Op) :
    ∃ t h, runOps ops = .ok t ∧ t.RepOk h ∧
      Nat.log (MAX_KEYS + 1) t.len ≤ h ∧ h ≤ Nat.log MIN_DEGREE ((t.len + 1) / 2) ∧
      (MIN_DEGREE - 1) * (t.nodes.length - 1) ≤ t.len ∧ t.len ≤ MAX_KEYS * t.nodes.length ∧
      ∀ key, getFrom t.nodes (h + 1) t.root key = .ok (live ops key) := by
  obtain ⟨t, es, hrun, ht, hlive⟩ := runOps_represents ops
  obtain ⟨h, hw, rfl⟩ := ht.whole
  have hlen := ht.len
  obtain ⟨n, hn, hok⟩ := hw.sub.node
  obtain ⟨hlow, hup⟩ := hw.sub.length_bounds
  obtain ⟨hfew, hmany⟩ := hw.sub.nodes_bounds
  rw [hw.ids.length_eq, List.length_range] at hfew hmany
  rw [← hlen] at hlow hup hfew hmany
  refine ⟨t, h, hrun, repOk_of_whole hw ht.sorted, ?_, ?_, by omega, hmany, fun key => ?_⟩
  · have hroot : keyCount t.nodes t.root ≤ MAX_KEYS := by
      rw [keyCount_eq hn]
      exact hok.2
    have hlt : t.len < (MAX_KEYS + 1) ^ (h + 1) := by
      rw [pow_succ]
      exact lt_of_lt_of_le (Nat.lt_succ_self _) (hup.trans (Nat.mul_le_mul_left _ (Nat.succ_le_succ hroot)))
    exact Nat.lt_succ_iff.1 (Nat.log_lt_of_lt_pow' (Nat.succ_ne_zero _) hlt)
  · rcases Nat.eq_zero_or_pos h with rfl | hpos
    · exact Nat.zero_le _
    · have hroot := hw.root_nonempty hpos.ne'
      have htwo : MIN_DEGREE ^ h * 2 ≤ t.len + 1 := (Nat.mul_le_mul_left _ (by omega)).trans hlow
      exact Nat.le_log_of_pow_le (by decide) ((Nat.le_div_iff_mul_le (by decide)).2 htwo)
  · rw [getFrom_spec hw.sub hw.nodup ht.sorted (Nat.lt_succ_self h), hlive]

end BTreeIndex

end NutDb
