/-
  `synchronize` on a leader.

  It brings the nodes that the leader can reach to its log and to its commit
  index, and then there is nothing left to do (`Settled`): a second call changes
  nothing.
-/
import NutDb.Raft.Sending
import NutDb.Raft.Safety

namespace NutDb

open Lib Lib.Raft

namespace Raft

/-! ## Advancing the commit index -/

namespace RaftNode
variable {n : RaftNode} {replicated : List ℕ}

theorem advanceCommit_eq_self
    (h : ∀ i, n.commitIndex < i → i ≤ n.log.length → n.canCommit replicated i = false) :
    n.advanceCommit replicated = n := by
  rcases advanceCommit_spec n replicated with heq | ⟨i, hlt, hle, -, hcan⟩
  · exact heq
  · rw [h i hlt hle] at hcan
    cases hcan

/-- `advance_commit` takes the greatest index that it can. -/
theorem advanceCommit_greatest (hrole : n.role = .leader) {i : ℕ}
    (hlt : (n.advanceCommit replicated).commitIndex < i) (hle : i ≤ n.log.length) :
    n.canCommit replicated i = false := by
  unfold advanceCommit at hlt
  rw [if_neg (by simpa using hrole)] at hlt
  dsimp only at hlt
  have hmem : ∀ {k}, k < i → n.commitIndex ≤ k →
      i ∈ (List.range' (n.commitIndex + 1) (n.lastLogIndex - n.commitIndex)).reverse := by
    intro k hk hk'
    rw [List.mem_reverse, List.mem_range'_1, lastLogIndex]
    omega
  rcases hfind : ((List.range' (n.commitIndex + 1) (n.lastLogIndex - n.commitIndex)).reverse.find?
      fun candidate => n.canCommit replicated candidate) with _ | k
  · rw [hfind] at hlt
    simpa using List.find?_eq_none.1 hfind i (hmem hlt le_rfl)
  · rw [hfind] at hlt
    have hlt : k < i := hlt
    have hk := List.mem_of_find?_eq_some hfind
    rw [List.mem_reverse, List.mem_range'_1] at hk
    obtain ⟨-, before, after, hsplit, hbefore⟩ := List.find?_eq_some_iff_append.1 hfind
    have hi := hmem hlt (by omega)
    -- the candidates go down, so `i` was refused before `k` was taken
    have hsorted : (before ++ k :: after).Pairwise fun a b => b < a := by
      rw [← hsplit, List.pairwise_reverse]
      exact List.pairwise_lt_range'
    rw [hsplit, List.mem_append, List.mem_cons] at hi
    rcases hi with hi | rfl | hi
    · simpa using hbefore i hi
    · exact absurd hlt (lt_irrefl _)
    · have := (List.pairwise_cons.1 (List.pairwise_append.1 hsorted).2.1).1 i hi
      omega

theorem commitIndex_le_advanceCommit (n : RaftNode) (replicated : List ℕ) :
    n.commitIndex ≤ (n.advanceCommit replicated).commitIndex := by
  rcases advanceCommit_spec n replicated with heq | ⟨i, hlt, -, heq, -⟩
  · rw [heq]
  · rw [heq]
    exact hlt.le

/-- `advance_commit` changes the commit index only. -/
theorem advanceCommit_eq (n : RaftNode) (replicated : List ℕ) : n.advanceCommit replicated =
    { n with commitIndex := (n.advanceCommit replicated).commitIndex } := by
  rcases advanceCommit_spec n replicated with heq | ⟨i, -, -, heq, -⟩
  · rw [heq]
  · rw [heq]

theorem le_commitAfter {commit : ℕ} (h : commit ≤ n.log.length) :
    n.commitIndex ≤ n.commitAfter commit ∧ commit ≤ n.commitAfter commit := by
  unfold commitAfter
  split_ifs with hlt
  · rw [Nat.min_eq_left h]
    exact ⟨hlt.le, le_rfl⟩
  · exact ⟨le_rfl, not_lt.1 hlt⟩

/-- The commit index of a node that is reached does not go down. -/
theorem Reached.commitIndex_le {sender n' : RaftNode} (h : Reached sender n n')
    (hle : sender.commitIndex ≤ sender.log.length) : n.commitIndex ≤ n'.commitIndex := by
  rw [h.commit]
  split_ifs with hlt
  · rw [h.inStep.length, Nat.min_eq_left hle]
    exact hlt.le
  · exact le_rfl

/-- A node that has applied a committed prefix of its log. -/
def Bounded (n : RaftNode) : Prop := n.lastApplied ≤ n.commitIndex ∧ n.commitIndex ≤ n.log.length

theorem Bounded.advanceCommit (h : n.Bounded) (replicated : List ℕ) : (n.advanceCommit replicated).Bounded := by
  rcases advanceCommit_spec n replicated with heq | ⟨i, hlt, hle, heq, -⟩
  · rw [heq]
    exact h
  · rw [heq]
    exact ⟨h.1.trans hlt.le, hle⟩

theorem Bounded.heard (h : n.Bounded) (leader : U64) (commit : ℕ) : (n.heard leader commit).Bounded := by
  obtain ⟨h1, h2⟩ := h
  simp only [Bounded, RaftNode.heard, commitAfter]
  split_ifs with hlt
  · exact ⟨by omega, min_le_right _ _⟩
  · exact ⟨h1, h2⟩

end RaftNode

/-! ## Nothing left to do -/

namespace RaftCluster
variable {c c' : RaftCluster} {leader : U64}

/-- A cluster in which a leader has nothing left to do. -/
structure Settled (c : RaftCluster) (leader : U64) : Prop where
  follows : ∀ q ∈ c.ids, q ≠ leader → c.cutOff leader q = false →
    RaftNode.Follows (c.nodes leader) (c.nodes q) ∧ (c.nodes q).leaderId = some leader
  commit : (c.nodes leader).advanceCommit (c.matchIndices leader (c.nodes leader).log c.ids) = c.nodes leader
  applied : ∀ q ∈ c.ids, (c.nodes q).lastApplied = (c.nodes q).commitIndex

theorem published_eq_self {followers : List U64}
    (h : ∀ q ∈ followers, q ≠ leader → c.cutOff leader q = false →
      RaftNode.Follows (c.nodes leader) (c.nodes q) ∧ (c.nodes q).leaderId = some leader) :
    c.published leader (c.nodes leader).commitIndex followers = c := by
  have hnodes : (fun q => if q ∈ followers ∧ q ≠ leader ∧ c.cutOff leader q = false then
      (c.nodes q).heard leader (c.nodes leader).commitIndex else c.nodes q) = c.nodes := by
    funext q
    split_ifs with hq
    · obtain ⟨hfollows, hid⟩ := h q hq.1 hq.2.1 hq.2.2
      rw [hfollows.heard, ← hid]
    · rfl
  rw [published, hnodes]

theorem applyAll_eq_self (ids : List U64)
    (h : ∀ q ∈ ids, (c.nodes q).lastApplied = (c.nodes q).commitIndex) : (applyAll ids).run c = (.ok (), c) := by
  induction ids with
  | nil => rfl
  | cons q ids ih =>
    have hq := h q List.mem_cons_self
    have htake : (c.nodes q).takeApplied = .ok ([], c.nodes q) := by
      have hcount : (c.nodes q).commitIndex - (c.nodes q).lastApplied = 0 := by omega
      have hmax : max (c.nodes q).lastApplied (c.nodes q).commitIndex = (c.nodes q).lastApplied := by omega
      rw [RaftNode.takeApplied, hcount, hmax]
      rfl
    have happ : (applyNode q).run c = (.ok (), c) := by
      rw [applyNode, Act.run_bind_ok (Act.run_gets _ c), htake, Act.run_bind_ok (Act.run_lift _ c)]
      simp
    rw [applyAll, Act.run_bind_ok happ, ih fun p hp => h p (List.mem_cons_of_mem _ hp)]

/-- **A settled cluster** is left alone. -/
theorem Settled.synchronize (h : Settled c leader) (hnodup : c.ids.Nodup) :
    (synchronize leader).run c = (.ok (), c) := by
  have hstep := fun q hq hql hcut => (h.follows q hq hql hcut).1.inStep
  have hadvance : (onNode leader (Act.modify fun n =>
      n.advanceCommit (c.matchIndices leader (c.nodes leader).log c.ids))).run c = (.ok (), c) := by
    rw [onNode_of_run (Act.run_modify _ _), h.commit, setNode_eq_self]
  have hexisting : (replicateExisting leader).run c = (.ok (c.nodes leader).commitIndex, c) := by
    rw [replicateExisting, Act.run_bind_ok (Act.run_gets _ c)]
    dsimp only
    rw [Act.run_bind_ok (matchFollowers_inStep _ c.ids hnodup hstep), published_eq_self h.follows,
      Act.run_bind_ok hadvance, Act.run_bind_ok (Act.run_gets _ c),
      Act.run_bind_ok (publish_inStep _ c.ids hnodup hstep), published_eq_self h.follows,
      Act.run_bind_ok (applyAll_eq_self c.ids h.applied)]
    rfl
  rw [RaftCluster.synchronize, Act.run_bind_ok hexisting]
  rfl

/-! ## A leader -/

section Published
variable {followers : List U64} {commit : ℕ} {q : U64}

theorem published_reached (hq : q ∈ followers) (hne : q ≠ leader) (hcut : c.cutOff leader q = false) :
    (c.published leader commit followers).nodes q = (c.nodes q).heard leader commit :=
  if_pos ⟨hq, hne, hcut⟩

theorem published_same (h : q = leader ∨ q ∉ followers ∨ c.cutOff leader q = true) :
    (c.published leader commit followers).nodes q = c.nodes q := by
  refine if_neg fun ⟨hq, hne, hcut⟩ => ?_
  rcases h with h | h | h
  · exact hne h
  · exact h hq
  · rw [hcut] at h
    cases h

end Published

/-- What a call of `synchronize` on a leader achieves. -/
structure Converged (c c' : RaftCluster) (leader : U64) : Prop where
  settled : Settled c' leader
  ids : c'.ids = c.ids
  log : (c'.nodes leader).log = (c.nodes leader).log
  logs : ∀ q ∈ c.ids, q ≠ leader → c.cutOff leader q = false →
    (c'.nodes q).log = (c.nodes leader).log ∧ (c'.nodes leader).commitIndex ≤ (c'.nodes q).commitIndex
  rises : ∀ q, (c.nodes q).commitIndex ≤ (c'.nodes q).commitIndex

/-- What the second part of `replicate_existing` leaves behind, in terms of the state after the
    first loop. -/
structure Finished (c c' : RaftCluster) (leader : U64) (indices : List ℕ) : Prop where
  net : c'.ids = c.ids ∧ c'.stopped = c.stopped ∧ c'.blocked = c.blocked
  leads : ∃ k, c'.nodes leader = { (c.nodes leader).advanceCommit indices with lastApplied := k }
  heard : ∀ q ∈ c.ids, q ≠ leader → c.cutOff leader q = false → ∃ k, c'.nodes q =
    { (c.nodes q).heard leader ((c.nodes leader).advanceCommit indices).commitIndex with lastApplied := k }
  rest : ∀ q, q ≠ leader → q ∉ c.ids ∨ c.cutOff leader q = true →
    ∃ k, c'.nodes q = { c.nodes q with lastApplied := k }

/-- **The second part of `replicate_existing`**, when the followers are in step. -/
theorem finish_run {sender : RaftNode} {indices : List ℕ} {r : Res ℕ} (hnodup : c.ids.Nodup)
    (hstep : ∀ q ∈ c.ids, q ≠ leader → c.cutOff leader q = false → RaftNode.InStep sender (c.nodes q))
    (hrun : (do
      onNode leader (Act.modify fun n => n.advanceCommit indices)
      let commit ← Act.gets fun c => (c.nodes leader).commitIndex
      publish leader sender.currentTerm sender.log commit c.ids
      applyAll c.ids
      return commit : Act RaftCluster ℕ).run c = (r, c')) :
    Finished c c' leader indices ∧ ((∀ q ∈ c.ids, (c.nodes q).Bounded) →
      (∃ k, r = .ok k) ∧ ∀ q ∈ c.ids, (c'.nodes q).lastApplied = (c'.nodes q).commitIndex) := by
  obtain ⟨k, hk⟩ : ∃ k, k = ((c.nodes leader).advanceCommit indices).commitIndex := ⟨_, rfl⟩
  obtain ⟨c₂, hc₂⟩ : ∃ c₂, c₂ = c.setNode leader ((c.nodes leader).advanceCommit indices) := ⟨_, rfl⟩
  have hself : c₂.nodes leader = (c.nodes leader).advanceCommit indices := by rw [hc₂, setNode_self]
  have hother : ∀ q, q ≠ leader → c₂.nodes q = c.nodes q := fun q hq => by rw [hc₂, setNode_of_ne hq]
  have hnet : SameNet c c₂ := hc₂ ▸ sameNet_setNode c leader _
  have hstep₂ : ∀ q ∈ c.ids, q ≠ leader → c₂.cutOff leader q = false → RaftNode.InStep sender (c₂.nodes q) := by
    intro q hq hql hcut
    rw [hother q hql]
    exact hstep q hq hql (by rw [← hnet.cutOff]; exact hcut)
  have hadvance : (onNode leader (Act.modify fun n => n.advanceCommit indices)).run c = (.ok (), c₂) := by
    rw [hc₂]
    exact onNode_of_run (Act.run_modify _ _)
  rw [Act.run_bind_ok hadvance, Act.run_bind_ok (Act.run_gets _ c₂), hself, ← hk,
    Act.run_bind_ok (publish_inStep k c.ids hnodup hstep₂)] at hrun
  have happly : AppliedTo (c₂.published leader k c.ids) c' := by
    rcases Act.run_bind_cases hrun with ⟨u, c₃, happly, hrun⟩ | ⟨e, happly, -⟩
    · cases hrun
      exact applyAll_appliedTo c.ids happly
    · exact applyAll_appliedTo c.ids happly
  refine ⟨⟨⟨happly.ids.trans hnet.1, happly.stopped.trans hnet.2.1, happly.blocked.trans hnet.2.2.1⟩,
    ?_, ?_, ?_⟩, fun hbounded => ?_⟩
  · obtain ⟨j, hj⟩ := happly.node leader
    exact ⟨j, by rw [hj, published_same (Or.inl rfl), hself]⟩
  · intro q hq hql hcut
    obtain ⟨j, hj⟩ := happly.node q
    exact ⟨j, by rw [hj, published_reached hq hql (by rw [hnet.cutOff]; exact hcut), hother q hql, hk]⟩
  · intro q hql hq
    obtain ⟨j, hj⟩ := happly.node q
    refine ⟨j, ?_⟩
    rw [hj, published_same (Or.inr (hq.imp_right fun hcut => by rw [hnet.cutOff]; exact hcut)), hother q hql]

  · have hpublished : ∀ q ∈ c.ids, ((c₂.published leader k c.ids).nodes q).Bounded := by
      intro q hq
      by_cases hql : q = leader
      · rw [published_same (Or.inl hql), hql, hself]
        exact (hbounded leader (hql ▸ hq)).advanceCommit indices
      by_cases hcut : c₂.cutOff leader q = true
      · rw [published_same (Or.inr (Or.inr hcut)), hother q hql]
        exact hbounded q hq
      · rw [published_reached hq hql (by simpa using hcut), hother q hql]
        exact (hbounded q hq).heard leader k
    obtain ⟨c₃, hall, -, hdone⟩ := applyAll_run c.ids hnodup hpublished
    rw [Act.run_bind_ok hall] at hrun
    cases hrun
    refine ⟨⟨k, rfl⟩, fun q hq => ?_⟩
    obtain ⟨j, hj⟩ := happly.node q
    rw [hdone q hq, hj]

/-- The two parts of `replicate_existing` together. -/
theorem Finished.converged {c₁ : RaftCluster} (hrole : (c.nodes leader).role = .leader)
    (hbounded : (c.nodes leader).Bounded) (hsent : Sent c c₁ (c.nodes leader) leader c.ids)
    (hlog : ∀ q ∈ c.ids, q ≠ leader → c.cutOff leader q = false → (c₁.nodes q).log = (c.nodes leader).log)
    (h : Finished c₁ c' leader (c.matchIndices leader (c.nodes leader).log c.ids))
    (happlied : ∀ q ∈ c.ids, (c'.nodes q).lastApplied = (c'.nodes q).commitIndex) : Converged c c' leader := by
  have hids : c₁.ids = c.ids := hsent.net.1
  have hcut₁ := hsent.net.cutOff leader
  have hcut' : ∀ q, c'.cutOff leader q = c.cutOff leader q := fun q => by
    rw [← hcut₁, cutOff, cutOff, reachable, reachable, h.net.2.1, h.net.2.2]
  obtain ⟨indices, hindices⟩ : ∃ indices, indices = c.matchIndices leader (c.nodes leader).log c.ids := ⟨_, rfl⟩
  have hindices' : c'.matchIndices leader (c.nodes leader).log c'.ids = indices := by
    rw [hindices, matchIndices, matchIndices, h.net.1.trans hids]
    simp only [hcut']
  obtain ⟨k, hk⟩ : ∃ k, k = ((c.nodes leader).advanceCommit indices).commitIndex := ⟨_, rfl⟩
  rw [← hindices] at h
  have hkbound : k ≤ (c.nodes leader).log.length := by
    have hle := (hbounded.advanceCommit indices).2
    rw [RaftNode.advanceCommit_eq, ← hk] at hle
    exact hle
  -- the leader
  obtain ⟨j, hleads⟩ := h.leads
  rw [hsent.same leader (Or.inl rfl), RaftNode.advanceCommit_eq, ← hk] at hleads
  -- the nodes that were reached
  have hreached : ∀ q ∈ c.ids, q ≠ leader → c.cutOff leader q = false →
      ∃ j, c'.nodes q = { (c₁.nodes q).heard leader k with lastApplied := j } := by
    intro q hq hql hcut
    obtain ⟨j, hj⟩ := h.heard q (hids ▸ hq) hql ((hcut₁ q).trans hcut)
    rw [hsent.same leader (Or.inl rfl), ← hk] at hj
    exact ⟨j, hj⟩
  have hcommit : ∀ q ∈ c.ids, q ≠ leader → c.cutOff leader q = false →
      (c₁.nodes q).commitIndex ≤ (c'.nodes q).commitIndex ∧ k ≤ (c'.nodes q).commitIndex := by
    intro q hq hql hcut
    obtain ⟨j, hj⟩ := hreached q hq hql hcut
    rw [hj]
    exact RaftNode.le_commitAfter (by rw [hlog q hq hql hcut]; exact hkbound)
  refine ⟨⟨fun q hq hql hcut => ?_, ?_, ?_⟩, h.net.1.trans hids, by rw [hleads], fun q hq hql hcut => ?_,
    fun q => ?_⟩
  · rw [h.net.1.trans hids] at hq
    rw [hcut'] at hcut
    obtain ⟨j', hj⟩ := hreached q hq hql hcut
    have hstep := (hsent.reached q hq hql hcut).inStep
    have hle := (hcommit q hq hql hcut).2
    rw [hj] at hle ⊢
    rw [hleads]
    exact ⟨⟨⟨hstep.term, hstep.length, hstep.lastTerm⟩, rfl, Or.inl hle⟩, rfl⟩
  · refine RaftNode.advanceCommit_eq_self ?_
    rw [hleads, hindices']
    intro i hlt hle
    exact RaftNode.advanceCommit_greatest hrole (hk ▸ hlt) hle
  · rw [h.net.1.trans hids]
    exact happlied
  · obtain ⟨j', hj⟩ := hreached q hq hql hcut
    refine ⟨by rw [hj]; exact hlog q hq hql hcut, ?_⟩
    rw [hleads]
    exact (hcommit q hq hql hcut).2
  · by_cases hql : q = leader
    · rw [hql, hleads]
      exact hk ▸ RaftNode.commitIndex_le_advanceCommit _ _
    by_cases hq : q ∉ c.ids ∨ c.cutOff leader q = true
    · obtain ⟨j', hj⟩ := h.rest q hql (by rw [hids, hcut₁]; exact hq)
      rw [hj, hsent.same q (Or.inr hq)]
    · rw [not_or, not_not, Bool.not_eq_true] at hq
      exact ((hsent.reached q hq.1 hql hq.2).commitIndex_le hbounded.2).trans (hcommit q hq.1 hql hq.2).1

/-- **`synchronize`**, from any state: the two parts of `replicate_existing`, or a failure in the
    first one. -/
theorem synchronize_run {r : Res Unit} (hnodup : c.ids.Nodup) (hrun : (synchronize leader).run c = (r, c')) :
    (∃ indices c₁, (matchFollowers leader (c.nodes leader).currentTerm (c.nodes leader).log
          (c.nodes leader).commitIndex c.ids).run c = (.ok indices, c₁) ∧
        Sent c c₁ (c.nodes leader) leader c.ids ∧ Finished c₁ c' leader indices ∧
        ((∀ q ∈ c₁.ids, (c₁.nodes q).Bounded) → r = .ok () ∧
          ∀ q ∈ c₁.ids, (c'.nodes q).lastApplied = (c'.nodes q).commitIndex)) ∨
      ((∃ e, (matchFollowers leader (c.nodes leader).currentTerm (c.nodes leader).log
          (c.nodes leader).commitIndex c.ids).run c = (.error e, c')) ∧ Broke c c' r (leader :: c.ids)) := by
  obtain ⟨r₁, c₁, hloop⟩ : ∃ r₁ c₁, (matchFollowers leader (c.nodes leader).currentTerm (c.nodes leader).log
      (c.nodes leader).commitIndex c.ids).run c = (r₁, c₁) := ⟨_, _, rfl⟩
  obtain ⟨r₂, c₂, hexisting⟩ : ∃ r₂ c₂, (replicateExisting leader).run c = (r₂, c₂) := ⟨_, _, rfl⟩
  have hfinish := hexisting
  rw [replicateExisting, Act.run_bind_ok (Act.run_gets _ c)] at hfinish
  dsimp only at hfinish
  -- what `replicate_existing` returns is dropped
  have hresult : c₂ = c' ∧ (∀ k, r₂ = .ok k → r = .ok ()) ∧ ∀ e, r₂ = .error e → r = .error e := by
    rw [synchronize] at hrun
    rcases r₂ with e | k
    · rw [Act.run_bind_error hexisting] at hrun
      cases hrun
      exact ⟨rfl, fun k hk => (by cases hk), fun e he => by cases he; rfl⟩
    · rw [Act.run_bind_ok hexisting] at hrun
      cases hrun
      exact ⟨rfl, fun _ _ => rfl, fun e he => by cases he⟩
  obtain ⟨rfl, hok, herror⟩ := hresult
  rcases matchFollowers_sent c.ids rfl hnodup hloop with ⟨⟨indices, rfl⟩, hsent⟩ | hbroke
  · have hids := hsent.net.1
    rw [Act.run_bind_ok hloop, ← hids] at hfinish
    have hstep : ∀ q ∈ c₁.ids, q ≠ leader → c₁.cutOff leader q = false →
        RaftNode.InStep (c.nodes leader) (c₁.nodes q) := by
      intro q hq hql hcut
      rw [hsent.net.cutOff] at hcut
      exact (hsent.reached q (hids ▸ hq) hql hcut).inStep
    obtain ⟨hfinished, happlied⟩ := finish_run (hids ▸ hnodup) hstep hfinish
    refine Or.inl ⟨indices, c₁, hloop, hsent, hfinished, fun hbounded => ?_⟩
    obtain ⟨⟨k, hk⟩, hdone⟩ := happlied hbounded
    exact ⟨hok k hk, hdone⟩
  · obtain ⟨⟨e, rfl⟩, hdep⟩ := hbroke
    rw [Act.run_bind_error hloop] at hfinish
    cases hfinish
    exact Or.inr ⟨⟨_, hloop⟩, ⟨e, herror _ rfl⟩, hdep⟩

/-- **`synchronize` on a leader** never panics, and converges if it succeeds. -/
theorem converged_of_leading {g : History} {r : Res Unit}
    (h : Leading c g leader (c.nodes leader).currentTerm (c.nodes leader).log)
    (hrun : (synchronize leader).run c = (r, c')) :
    Res.Returns r ∧ (r = .ok () → Converged c c' leader) := by
  rcases synchronize_run h.good.nodup hrun with
    ⟨indices, c₁, hloop, hsent, hfinished, happlied⟩ | ⟨-, ⟨e, rfl⟩, -⟩
  · obtain ⟨hgood, hnet, hmatched⟩ := h.matchFollowers c.ids h.good.nodup (fun q hq => hq) hloop
    obtain ⟨-, -, hindices, hsync⟩ := hmatched indices rfl
    obtain ⟨rfl, hdone⟩ := happlied fun q hq =>
      ⟨(hgood.node q hq).le, (hgood.inv.commit q (List.mem_toFinset.2 hq)).1⟩
    refine ⟨Res.returns_ok _, fun _ => ?_⟩
    have hself := h.good.node leader h.mem
    rw [hindices] at hfinished
    rw [hnet.1] at hdone
    exact hfinished.converged h.role ⟨hself.le, (h.good.inv.commit leader (List.mem_toFinset.2 h.mem)).1⟩ hsent
      (fun q hq hql hcut => (hsync q hq hql hcut).2) hdone
  · exact ⟨Res.returns_fail e.kind e.message, fun hr => (nomatch hr)⟩

/-- Three nodes, of which the third one was isolated while the first one replicated a command. -/
def thirdBehind : RaftCluster :=
  ((firstElected.after (.isolate 3)).after (.replicate 1 [7])).after .healAll

theorem trace_thirdBehind : ∃ steps, Trace Step threeNodes steps thirdBehind :=
  ⟨_, ((((Trace.refl _).step step_firstElected).step (step_after (.isolate 3) trivial rfl)).step
    (step_after (.replicate 1 [7]) trivial rfl)).step (step_after .healAll trivial rfl)⟩

section Converges
variable {ids : List U64} {seed : U64} {c₀ : RaftCluster} {steps : List (RaftCluster × Event)}

/-- **`synchronize` on a leader converges.** -/
theorem synchronize_converges (hopen : openCluster ids (fun _ => none) seed = .ok c₀)
    (htrace : Trace Step c₀ steps c) (hmem : leader ∈ c.ids) (hrole : (c.nodes leader).role = .leader)
    {r : Res Unit} (hrun : (synchronize leader).run c = (r, c')) :
    Res.Returns r ∧ (r = .ok () →
      (∀ q ∈ c.ids, q ≠ leader → q ∉ c.stopped → c.reachable leader q = true →
        (c'.nodes q).log = (c'.nodes leader).log ∧
          (c'.nodes leader).commitIndex ≤ (c'.nodes q).commitIndex) ∧
      (c'.nodes leader).log = (c.nodes leader).log ∧
      (∀ q ∈ c.ids, (c.nodes q).commitIndex ≤ (c'.nodes q).commitIndex) ∧
      (synchronize leader).run c' = (.ok (), c')) := by
  obtain ⟨g, hgood, -⟩ := (good_open hopen).trace htrace
  obtain ⟨hret, hok⟩ := converged_of_leading ⟨hgood, hmem, hrole, rfl, rfl⟩ hrun
  refine ⟨hret, fun hr => ?_⟩
  have hconv := hok hr
  refine ⟨fun q hq hql hstop hreach => ?_, hconv.log, fun q _ => hconv.rises q, ?_⟩
  · obtain ⟨hlog, hcommit⟩ := hconv.logs q hq hql (by simp [cutOff, hstop, hreach])
    exact ⟨hlog.trans hconv.log.symm, hcommit⟩
  · exact hconv.settled.synchronize (hconv.ids ▸ hgood.nodup)

theorem synchronize_converges_third : ∃ c, (synchronize 1).run thirdBehind = (.ok (), c) ∧
    (thirdBehind.nodes 3).log = [] ∧ (c.nodes 3).log = [⟨1, [7]⟩] := by
  obtain ⟨steps, htrace⟩ := trace_thirdBehind
  have hlog : (thirdBehind.nodes 1).log = [⟨1, [7]⟩] := by decide +kernel
  obtain ⟨c, hrun⟩ : ∃ c, (synchronize 1).run thirdBehind = (.ok (), c) :=
    ⟨_, Act.run_eq_of_fst (by decide +kernel)⟩
  have hmem : (1 : U64) ∈ thirdBehind.ids := by decide +kernel
  have hrole : (thirdBehind.nodes 1).role = .leader := by decide +kernel
  obtain ⟨-, h⟩ := synchronize_converges open_threeNodes htrace hmem hrole hrun
  obtain ⟨hlogs, hsame, -⟩ := h rfl
  refine ⟨c, hrun, by decide +kernel, ?_⟩
  rw [(hlogs 3 (by decide +kernel) (by decide) (by decide +kernel) (by decide +kernel)).1, hsame, hlog]

end Converges

end RaftCluster

end Raft

end NutDb
