/-
  Invariants of the network of a cluster.

  Elections and replication change nodes and what they have applied, and nothing
  else: an invariant of the other fields has to be checked for the calls that
  change the network only (`NetInv`).  One of them is that links are blocked in
  both directions.
-/
import NutDb.Raft.Convergence

namespace NutDb

open Lib

namespace Raft

namespace RaftCluster

/-- An invariant that does not depend on the nodes. -/
structure NetInv (I : RaftCluster → Prop) : Prop where
  nodes : ∀ {c : RaftCluster} nodes applied, I c → I { c with nodes := nodes, applied := applied }
  partition : ∀ {c : RaftCluster} a b, I c → I (c.partition a b)
  healAll : ∀ {c : RaftCluster}, I c → I c.healAll
  stop : ∀ {c : RaftCluster} node, I c → I (c.stop node)
  start : ∀ {c : RaftCluster} node, I c → I (c.start node)

section Preserves
variable {I : RaftCluster → Prop}

theorem NetInv.onNode (h : NetInv I) {α : Type} (q : U64) (x : Act RaftNode α) : Act.Preserves I (onNode q x) :=
  fun _ hc => h.nodes _ _ hc

theorem NetInv.collectVotes (h : NetInv I) (candidate : U64) (request : RequestVote) (peers : List U64) : ∀ votes,
    Act.Preserves I (collectVotes candidate request peers votes) := by
  induction peers with
  | nil => exact fun votes => Act.preserves_pure _
  | cons peer peers ih =>
    intro votes
    refine Act.preserves_bind (Act.preserves_gets _) fun c => Act.preserves_ite (ih votes) ?_
    refine Act.preserves_bind (h.onNode _ _) fun response => Act.preserves_ite ?_ (ih _)
    exact Act.preserves_bind (h.onNode _ _) fun _ => Act.preserves_pure _

theorem NetInv.elect (h : NetInv I) (candidate : U64) : Act.Preserves I (elect candidate) := by
  refine Act.preserves_bind (Act.preserves_gets _) fun c => Act.preserves_ite (Act.preserves_pure _) ?_
  refine Act.preserves_ite (Act.preserves_fail _ _) (Act.preserves_bind (h.onNode _ _) fun request => ?_)
  refine Act.preserves_bind (h.collectVotes _ _ _ _) fun votes => ?_
  cases votes with
  | none => exact Act.preserves_pure _
  | some votes =>
    refine Act.preserves_ite (Act.preserves_bind (h.onNode _ _) fun _ => ?_) ?_
    · exact Act.preserves_pure _
    · exact Act.preserves_pure _

theorem NetInv.electByTimeout (h : NetInv I) : Act.Preserves I electByTimeout := by
  refine Act.preserves_bind (Act.preserves_gets _) fun c => ?_
  split
  · exact Act.preserves_pure _
  · exact Act.preserves_bind (h.elect _) fun won => Act.preserves_pure _

theorem NetInv.matchFollower (h : NetInv I) (leader follower term : U64) (log : List Entry) (commit prev : ℕ) :
    Act.Preserves I (matchFollower leader follower term log commit prev) := by
  have htry : ∀ prev, Act.Preserves I (tryAppend leader follower term log commit prev) := by
    intro prev
    refine Act.preserves_bind (Act.preserves_lift _) fun u => ?_
    refine Act.preserves_bind (h.onNode _ _) fun response => Act.preserves_ite ?_ (Act.preserves_pure _)
    exact Act.preserves_bind (h.onNode _ _) fun _ => Act.preserves_fail _ _
  induction prev with
  | zero => exact Act.preserves_bind (htry 0) fun _ => Act.preserves_pure _
  | succ prev ih =>
    refine Act.preserves_bind (htry _) fun matched => ?_
    cases matched with
    | some index => exact Act.preserves_pure _
    | none => exact ih

theorem NetInv.matchFollowers (h : NetInv I) (leader term : U64) (log : List Entry) (commit : ℕ)
    (followers : List U64) : Act.Preserves I (matchFollowers leader term log commit followers) := by
  induction followers with
  | nil => exact Act.preserves_pure _
  | cons follower followers ih =>
    refine Act.preserves_bind (Act.preserves_gets _) fun c => Act.preserves_ite ih ?_
    have hrest : ∀ index, Act.Preserves I (do
        let matched ← RaftCluster.matchFollowers leader term log commit followers
        return index :: matched) := fun index => Act.preserves_bind ih fun matched => Act.preserves_pure _
    refine Act.preserves_ite (Act.preserves_bind (Act.preserves_pure _) hrest) ?_
    exact Act.preserves_bind (h.matchFollower _ _ _ _ _ _) hrest

theorem NetInv.publish (h : NetInv I) (leader term : U64) (log : List Entry) (commit : ℕ) (followers : List U64) :
    Act.Preserves I (publish leader term log commit followers) := by
  induction followers with
  | nil => exact Act.preserves_pure _
  | cons follower followers ih =>
    refine Act.preserves_bind (Act.preserves_gets _) fun c => Act.preserves_ite ih ?_
    refine Act.preserves_bind (Act.preserves_lift _) fun u => ?_
    exact Act.preserves_bind (h.onNode _ _) fun _ => ih

theorem NetInv.applyAll (h : NetInv I) (ids : List U64) : Act.Preserves I (applyAll ids) := by
  induction ids with
  | nil => exact Act.preserves_pure _
  | cons id ids ih =>
    refine Act.preserves_bind ?_ fun _ => ih
    refine Act.preserves_bind (Act.preserves_gets _) fun c => Act.preserves_bind (Act.preserves_lift _) fun x => ?_
    exact Act.preserves_modify fun c hc => h.nodes _ _ hc

theorem NetInv.replicateExisting (h : NetInv I) (leader : U64) : Act.Preserves I (replicateExisting leader) := by
  refine Act.preserves_bind (Act.preserves_gets _) fun c => ?_
  refine Act.preserves_bind (h.matchFollowers _ _ _ _ _) fun matched => ?_
  refine Act.preserves_bind (h.onNode _ _) fun _ => Act.preserves_bind (Act.preserves_gets _) fun k => ?_
  refine Act.preserves_bind (h.publish _ _ _ _ _) fun _ => ?_
  exact Act.preserves_bind (h.applyAll _) fun _ => Act.preserves_pure _

theorem NetInv.replicate (h : NetInv I) (leader : U64) (command : Bytes) :
    Act.Preserves I (replicate leader command) := by
  refine Act.preserves_bind (Act.preserves_gets _) fun c => Act.preserves_ite (Act.preserves_fail _ _) ?_
  refine Act.preserves_ite (Act.preserves_fail _ _) (Act.preserves_bind (h.onNode _ _) fun index => ?_)
  refine Act.preserves_bind (h.replicateExisting leader) fun _ => ?_
  refine Act.preserves_bind (Act.preserves_gets _) fun commit => ?_
  exact Act.preserves_ite (Act.preserves_fail _ _) (Act.preserves_pure _)

theorem NetInv.isolate (h : NetInv I) {c : RaftCluster} (node : U64) (hc : I c) : I (c.isolate node) := by
  have hloop : ∀ (peers : List U64) {c : RaftCluster}, I c →
      I (peers.foldl (fun c peer => if peer ≠ node then c.partition node peer else c) c) := by
    intro peers
    induction peers with
    | nil => exact fun hc => hc
    | cons peer peers ih =>
      intro c hc
      rw [List.foldl_cons]
      split_ifs
      · exact ih (h.partition node peer hc)
      · exact ih hc
  exact hloop c.ids hc

/-- **The calls keep an invariant of the network.** -/
theorem NetInv.call (h : NetInv I) (call : Call) : Act.Preserves I call.run := by
  cases call with
  | elect candidate => exact Act.preserves_bind (h.elect _) fun _ => Act.preserves_pure _
  | electByTimeout => exact Act.preserves_bind h.electByTimeout fun _ => Act.preserves_pure _
  | replicate leader command => exact Act.preserves_bind (h.replicate _ _) fun _ => Act.preserves_pure _
  | synchronize leader =>
    refine Act.preserves_bind ?_ fun _ => Act.preserves_pure _
    exact Act.preserves_bind (h.replicateExisting _) fun _ => Act.preserves_pure _
  | partition a b => exact fun c hc => h.partition a b hc
  | isolate node => exact fun c hc => h.isolate node hc
  | healAll => exact fun c hc => h.healAll hc
  | stop node => exact fun c hc => h.stop node hc
  | start node => exact fun c hc => h.start node hc

theorem netInv_ids (ids : List U64) : NetInv fun c => c.ids = ids :=
  ⟨fun _ _ h => h, fun _ _ h => h, fun h => h, fun _ h => h, fun _ h => h⟩

end Preserves

/-! ## Links are blocked in both directions -/

/-- The links that are blocked in one direction are blocked in the other. -/
def Symmetric (c : RaftCluster) : Prop := ∀ a b, (a, b) ∈ c.blocked → (b, a) ∈ c.blocked

theorem netInv_symmetric : NetInv Symmetric where
  nodes _ _ h := h
  partition a b h := by
    intro p q hpq
    simp only [RaftCluster.partition, List.mem_cons, Prod.mk.injEq] at hpq ⊢
    rcases hpq with ⟨rfl, rfl⟩ | ⟨rfl, rfl⟩ | hpq
    · exact Or.inr (Or.inl ⟨rfl, rfl⟩)
    · exact Or.inl ⟨rfl, rfl⟩
    · exact Or.inr (Or.inr (h p q hpq))
  healAll _ := fun p q hpq => (nomatch hpq)
  stop _ h := h
  start _ h := h

/-- A cluster that has been opened has no blocked links. -/
theorem blocked_of_open {ids : List U64} {files : U64 → Option Bytes} {seed : U64} {c : RaftCluster}
    (h : openCluster ids files seed = .ok c) : c.blocked = [] := by
  have hloop : ∀ (ids : List U64) {c₀ : RaftCluster}, c₀.blocked = [] →
      ids.foldlM (openNext files seed) c₀ = .ok c → c.blocked = [] := by
    intro ids
    induction ids with
    | nil =>
      intro c₀ h₀ h
      cases h
      exact h₀
    | cons id ids ih =>
      intro c₀ h₀ h
      rw [List.foldlM_cons] at h
      obtain ⟨c₁, h₁, h⟩ := Res.bind_eq_ok.1 h
      obtain ⟨n, -, h₁⟩ := Res.bind_eq_ok.1 h₁
      cases h₁
      exact ih (show (c₀.insertNode id n).blocked = [] from h₀) h
  exact hloop ids rfl h

theorem symmetric_of_open {ids : List U64} {files : U64 → Option Bytes} {seed : U64} {c : RaftCluster}
    (h : openCluster ids files seed = .ok c) : Symmetric c := by
  intro a b hab
  rw [blocked_of_open h] at hab
  cases hab

/-- **A run keeps the links symmetric.** -/
theorem Symmetric.trace {c₀ c : RaftCluster} {steps : List (RaftCluster × Event)} (h : Symmetric c₀)
    (htrace : Trace Step c₀ steps c) : Symmetric c := by
  refine htrace.inv ?_ h
  intro s e s' hs hstep
  cases hstep with
  | @call _ call _ _ hrun =>
    have hkeep := netInv_symmetric.call call s hs
    rw [hrun] at hkeep
    exact hkeep
  | reopen hc => exact symmetric_of_open hc

/-- A follower that a leader reaches in one direction can be asked for its vote. -/
theorem Symmetric.passedOver {c : RaftCluster} {leader q : U64} (h : Symmetric c) (hne : q ≠ leader)
    (hcut : c.cutOff leader q = false) : c.passedOver leader q = false := by
  simp only [RaftCluster.cutOff, reachable, Bool.or_eq_false_iff, decide_eq_false_iff_not, Bool.not_eq_false',
    decide_eq_true_eq] at hcut
  obtain ⟨hstop, hlink⟩ := hcut
  have hback : (q, leader) ∉ c.blocked := fun hb => hlink (h _ _ hb)
  simp [RaftCluster.passedOver, reachable, hne, hstop, hlink, hback]

end RaftCluster

end Raft

end NutDb
