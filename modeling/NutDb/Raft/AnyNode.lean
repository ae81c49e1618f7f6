/-
  `synchronize` on a node that does not lead.

  `replicate` refuses such a node, `synchronize` does not: the nodes that it can
  reach take over its term and its log.  Nothing changes exactly if they follow
  the node already (`synchronize_iff`); otherwise even a committed entry can get
  lost.
-/
import NutDb.Raft.Links

namespace NutDb

open Lib

namespace Raft

/-! ## The state of a node -/

namespace RaftNode
variable {sender n n' : RaftNode}

/-- Nodes with the same term, vote, role, log and commit index. -/
structure SameState (n n' : RaftNode) : Prop where
  term : n'.currentTerm = n.currentTerm
  vote : n'.votedFor = n.votedFor
  role : n'.role = n.role
  log : n'.log = n.log
  commit : n'.commitIndex = n.commitIndex

theorem SameState.refl (n : RaftNode) : SameState n n := ⟨rfl, rfl, rfl, rfl, rfl⟩

theorem SameState.symm (h : SameState n n') : SameState n' n :=
  ⟨h.term.symm, h.vote.symm, h.role.symm, h.log.symm, h.commit.symm⟩

theorem SameState.trans {n'' : RaftNode} (h : SameState n n') (h' : SameState n' n'') : SameState n n'' :=
  ⟨h'.term.trans h.term, h'.vote.trans h.vote, h'.role.trans h.role, h'.log.trans h.log,
    h'.commit.trans h.commit⟩

theorem SameState.applied (h : SameState n n') (k : ℕ) : SameState n { n' with lastApplied := k } :=
  ⟨h.term, h.vote, h.role, h.log, h.commit⟩

theorem Departed.not_sameState (h : Departed n n') : ¬ SameState n n' := by
  intro hsame
  rcases h with hlt | hlog
  · exact absurd hsame.term hlt.ne'
  · exact hlog hsame.log

/-- Whether a node follows depends on its state only. -/
theorem Follows.congr (h : Follows sender n) (hsame : SameState n n') : Follows sender n' := by
  obtain ⟨⟨hterm, hlen, hlast⟩, hrole, hcommit⟩ := h
  refine ⟨⟨hsame.term.trans hterm, by rw [hsame.log]; exact hlen, ?_⟩, hsame.role.trans hrole, ?_⟩
  · rw [lastLogTerm, hsame.log]
    exact hlast
  · rw [hsame.commit, hsame.log]
    exact hcommit

/-- A node that follows is not changed by a request without entries. -/
theorem Follows.sameState (h : Follows sender n) (leader : U64) :
    SameState n (n.heard leader sender.commitIndex) := by
  rw [h.heard]
  exact ⟨rfl, rfl, rfl, rfl, rfl⟩

theorem advanceCommit_of_ne (h : n.role ≠ .leader) (replicated : List ℕ) : n.advanceCommit replicated = n :=
  if_pos h

end RaftNode

namespace RaftCluster
variable {c c' : RaftCluster} {id : U64}

/-! ## Runs -/

/-- `synchronize` indexes the map of the nodes, which panics at an unknown id. -/
def Call.Known (c : RaftCluster) : Call → Prop
  | .synchronize id => id ∈ c.ids
  | _ => True

/-- The steps of a cluster whose callers may name any node. -/
inductive AnyStep : RaftCluster → Event → RaftCluster → Prop
  | call {c c' : RaftCluster} {call : Call} {result : Res Answer} : call.Known c →
      call.run.run c = (result, c') → AnyStep c (.call call result) c'
  | reopen {c c' : RaftCluster} {seed : U64} : c.reopen seed = .ok c' → AnyStep c (.reopen seed) c'

theorem AnyStep.of_step {e : Event} (h : Step c e c') : AnyStep c e c' := by
  cases h with
  | @call _ call _ hallowed hrun =>
    refine .call ?_ hrun
    cases call with
    | synchronize id => exact hallowed.1
    | _ => trivial
  | reopen hc => exact .reopen hc

/-- **The calls keep the nodes of the cluster.** -/
theorem Call.preserves_ids (call : Call) (ids : List U64) : Act.Preserves (fun c : RaftCluster => c.ids = ids) call.run :=
  (netInv_ids ids).call call

theorem openCluster_nodup {ids : List U64} {files : U64 → Option Bytes} {seed : U64}
    (h : openCluster ids files seed = .ok c) : c.ids.Nodup := by
  have hloop : ∀ (ids : List U64) {c₀ : RaftCluster}, c₀.ids.Nodup →
      ids.foldlM (openNext files seed) c₀ = .ok c → c.ids.Nodup := by
    intro ids
    induction ids with
    | nil =>
      intro c₀ h₀ h
      cases h
      exact h₀
    | cons id ids ih =>
      intro c₀ h₀ h
      rw [List.foldlM_cons] at h
      obtain ⟨c₁, h₁, h⟩ := Res.bind_eq_ok.1 h
      obtain ⟨n, -, h₁⟩ := Res.bind_eq_ok.1 h₁
      cases h₁
      refine ih ?_ h
      simp only [insertNode]
      split_ifs with hid
      · exact h₀
      · exact (List.perm_orderedInsert _ id c₀.ids).nodup_iff.2 (List.nodup_cons.2 ⟨hid, h₀⟩)
  exact hloop ids List.nodup_nil h

/-- A map has every key once. -/
theorem nodup_of_trace {c₀ : RaftCluster} {steps : List (RaftCluster × Event)} (h : c₀.ids.Nodup)
    (htrace : Trace AnyStep c₀ steps c) : c.ids.Nodup := by
  refine htrace.inv (I := fun c => c.ids.Nodup) ?_ h
  intro s e s' hs hstep
  cases hstep with
  | @call _ call result _ hrun =>
    have hids := call.preserves_ids s.ids s rfl
    rw [hrun] at hids
    rw [hids]
    exact hs
  | reopen hc => exact openCluster_nodup hc

/-! ## A node that does not lead -/

/-- The second part of `replicate_existing` changes no node that follows. -/
theorem Finished.sameState {c₁ : RaftCluster} {sender : RaftNode} {indices : List ℕ}
    (h : Finished c₁ c' id indices) (hself : RaftNode.SameState sender (c₁.nodes id))
    (hrole : sender.role ≠ .leader)
    (hfollows : ∀ q ∈ c₁.ids, q ≠ id → c₁.cutOff id q = false → RaftNode.Follows sender (c₁.nodes q)) (q : U64) :
    RaftNode.SameState (c₁.nodes q) (c'.nodes q) := by
  have hadvance : (c₁.nodes id).advanceCommit indices = c₁.nodes id :=
    RaftNode.advanceCommit_of_ne (by rw [hself.role]; exact hrole) indices
  by_cases hq : q = id
  · obtain ⟨k, hk⟩ := h.leads
    rw [hq, hk, hadvance]
    exact (RaftNode.SameState.refl _).applied k
  by_cases hrest : q ∉ c₁.ids ∨ c₁.cutOff id q = true
  · obtain ⟨k, hk⟩ := h.rest q hq hrest
    rw [hk]
    exact (RaftNode.SameState.refl _).applied k
  · rw [not_or, not_not, Bool.not_eq_true] at hrest
    obtain ⟨k, hk⟩ := h.heard q hrest.1 hq hrest.2
    rw [hk, hadvance, hself.commit]
    exact ((hfollows q hrest.1 hq hrest.2).sameState id).applied k

/-- **`synchronize` on a node that does not lead**: nothing changes exactly if the nodes that it can
    reach follow it. -/
theorem sameState_iff_follows {r : Res Unit} (hnodup : c.ids.Nodup) (hmem : id ∈ c.ids)
    (hrole : (c.nodes id).role ≠ .leader) (hrun : (synchronize id).run c = (r, c')) :
    (∀ q ∈ c.ids, RaftNode.SameState (c.nodes q) (c'.nodes q)) ↔
      ∀ q ∈ c.ids, q ≠ id → c.cutOff id q = false → RaftNode.Follows (c.nodes id) (c.nodes q) := by
  constructor
  · intro hsame q hq hqid hcut
    rcases synchronize_run hnodup hrun with ⟨indices, c₁, -, hsent, hfinished, -⟩ | ⟨-, -, p, hp, hdep⟩
    · have hids := hsent.net.1
      have hself : c₁.nodes id = c.nodes id := hsent.same id (Or.inl rfl)
      have hfollows : ∀ q ∈ c₁.ids, q ≠ id → c₁.cutOff id q = false →
          RaftNode.Follows (c.nodes id) (c₁.nodes q) := by
        intro q hq hqid hcut
        rw [hsent.net.cutOff] at hcut
        exact (hsent.reached q (hids ▸ hq) hqid hcut).follows
      have hend := hfinished.sameState (by rw [hself]; exact RaftNode.SameState.refl _) hrole hfollows q
      have hfollow := hfollows q (hids ▸ hq) hqid (by rw [hsent.net.cutOff]; exact hcut)
      exact hfollow.congr (hend.trans (hsame q hq).symm)
    · -- the call has failed, but not before a change
      have hp : p ∈ c.ids := by
        rcases List.mem_cons.1 hp with rfl | hp
        · exact hmem
        · exact hp
      exact absurd (hsame p hp) hdep.not_sameState
  · intro h q hq
    have hloop₀ := matchFollowers_inStep (c.nodes id).commitIndex c.ids hnodup
      fun q hq hqid hcut => (h q hq hqid hcut).inStep
    rcases synchronize_run hnodup hrun with ⟨indices, c₁, hloop, hsent, hfinished, -⟩ | ⟨⟨e, hloop⟩, -⟩
    · rw [hloop₀, Prod.mk.injEq] at hloop
      obtain ⟨-, rfl⟩ := hloop
      have hsame : ∀ q, RaftNode.SameState (c.nodes q) ((c.published id (c.nodes id).commitIndex c.ids).nodes q) := by
        intro q
        by_cases hskip : q = id ∨ q ∉ c.ids ∨ c.cutOff id q = true
        · rw [published_same hskip]
          exact RaftNode.SameState.refl _
        · simp only [not_or, not_not, Bool.not_eq_true] at hskip
          obtain ⟨hqid, hq, hcut⟩ := hskip
          rw [published_reached hq hqid hcut]
          exact (h q hq hqid hcut).sameState id
      exact (hsame q).trans (hfinished.sameState (hsame id) hrole
        (fun q hq hqid hcut => (h q hq hqid hcut).congr (hsame q)) q)
    · rw [hloop₀] at hloop
      cases hloop

section AnyNode
variable {ids : List U64} {files : U64 → Option Bytes} {seed : U64} {c₀ : RaftCluster}
  {steps : List (RaftCluster × Event)}

/-- **`synchronize` on a node that does not lead**, in a run in which the callers may name any node:
    the term, the vote, the role, the log and the commit index of every node stay as they are exactly
    if the nodes that are not stopped and can be reached follow it. -/
theorem synchronize_iff (hopen : openCluster ids files seed = .ok c₀) (htrace : Trace AnyStep c₀ steps c)
    (hmem : id ∈ c.ids) (hrole : (c.nodes id).role ≠ .leader) {r : Res Unit}
    (hrun : (synchronize id).run c = (r, c')) :
    (∀ q ∈ c.ids, RaftNode.SameState (c.nodes q) (c'.nodes q)) ↔
      ∀ q ∈ c.ids, q ≠ id → q ∉ c.stopped → c.reachable id q = true →
        RaftNode.Follows (c.nodes id) (c.nodes q) := by
  rw [sameState_iff_follows (nodup_of_trace (openCluster_nodup hopen) htrace) hmem hrole hrun]
  have hcut : ∀ q, c.cutOff id q = false ↔ q ∉ c.stopped ∧ c.reachable id q = true := by
    intro q
    simp [cutOff]
  simp only [hcut, and_imp]

/-- Two nodes that follow a third one, which was stopped after it had replicated a command. -/
def firstStopped : RaftCluster := firstReplicated.after (.stop 1)

theorem trace_firstStopped : ∃ steps, Trace AnyStep threeNodes steps firstStopped :=
  ⟨_, (((Trace.refl _).step (.of_step step_firstElected)).step (.of_step step_firstReplicated)).step
    (.of_step (step_after (.stop 1) trivial rfl))⟩

theorem synchronize_iff_stopped : ∃ c, (synchronize 2).run firstStopped = (.ok (), c) ∧
    ∀ q ∈ firstStopped.ids, RaftNode.SameState (firstStopped.nodes q) (c.nodes q) := by
  obtain ⟨steps, htrace⟩ := trace_firstStopped
  obtain ⟨c, hrun⟩ : ∃ c, (synchronize 2).run firstStopped = (.ok (), c) :=
    ⟨_, Act.run_eq_of_fst (by decide +kernel)⟩
  have hmem : (2 : U64) ∈ firstStopped.ids := by decide +kernel
  have hids : firstStopped.ids = [1, 2, 3] := by decide +kernel
  refine ⟨c, hrun, (synchronize_iff open_threeNodes htrace hmem (by decide +kernel) hrun).2 ?_⟩
  intro q hq hqid hstop _
  rw [hids] at hq
  simp only [List.mem_cons, List.not_mem_nil, or_false] at hq
  rcases hq with rfl | rfl | rfl
  · exact absurd (by decide +kernel : (1 : U64) ∈ firstStopped.stopped) hstop
  · exact absurd rfl hqid
  · exact ⟨⟨by decide +kernel, by decide +kernel, by decide +kernel⟩, by decide +kernel,
      Or.inl (by decide +kernel)⟩

end AnyNode

/-- A node that was isolated while a command was committed: `synchronize` on it removes the entry
    from the log of the leader, which does not lead any more. -/
theorem not_sameState_third : (∃ steps, Trace AnyStep threeNodes steps thirdBehind) ∧
    3 ∈ thirdBehind.ids ∧ (thirdBehind.nodes 3).role = .follower ∧
    (thirdBehind.nodes 1).role = .leader ∧ (thirdBehind.nodes 1).commitIndex = 1 ∧
    (thirdBehind.nodes 1).log = [⟨1, [7]⟩] ∧ ∃ c, (synchronize 3).run thirdBehind = (.ok (), c) ∧
      (c.nodes 1).role = .follower ∧ (c.nodes 1).commitIndex = 1 ∧ (c.nodes 1).log = [] ∧
      ¬ ∀ q ∈ thirdBehind.ids, RaftNode.SameState (thirdBehind.nodes q) (c.nodes q) := by
  have htrace : ∃ steps, Trace AnyStep threeNodes steps thirdBehind :=
    ⟨_, ((((Trace.refl _).step (.of_step step_firstElected)).step
      (.of_step (step_after (.isolate 3) trivial rfl))).step
      (.of_step (step_after (.replicate 1 [7]) trivial rfl))).step (.of_step (step_after .healAll trivial rfl))⟩
  refine ⟨htrace, by decide +kernel, by decide +kernel, by decide +kernel, by decide +kernel,
    by decide +kernel, _, Act.run_eq_of_fst (by decide +kernel), by decide +kernel, by decide +kernel,
    by decide +kernel, fun h => ?_⟩
  have hrole := (h 1 (by decide +kernel)).role
  exact absurd hrole (by decide +kernel)

end RaftCluster

end Raft

end NutDb
