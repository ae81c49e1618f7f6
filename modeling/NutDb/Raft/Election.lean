/-
  Elections.

  A candidate is on disk with its new term before it asks for votes, so no node
  has voted for it in this term before.  A vote that counts is on disk when it is
  counted.
-/
import NutDb.Raft.Refine

namespace NutDb

open Lib Lib.Raft

namespace Raft

namespace RaftCluster

/-- A candidate that asks for votes. -/
structure Standing (c : RaftCluster) (candidate : U64) (request : RequestVote) : Prop where
  mem : candidate ∈ c.ids
  id : request.candidateId = candidate
  term : (c.nodes candidate).currentTerm = request.term
  vote : (c.nodes candidate).votedFor = some candidate
  index : request.lastLogIndex = (c.nodes candidate).log.length
  last : request.lastLogTerm = lastTerm Entry.term 0 (c.nodes candidate).log
  persistable : Persistable (c.nodes candidate).log

/-- A node whose vote counts. -/
structure Supports (c : RaftCluster) (candidate t q : U64) : Prop where
  term : (c.nodes q).currentTerm = t
  vote : (c.nodes q).votedFor = some candidate
  disk : Backs t candidate (c.nodes q).disk
  upToDate : UpToDate Entry.term 0 (c.nodes candidate).log (c.nodes q).log

section Vote
variable {c c' : RaftCluster} {g : History} {candidate : U64} {request : RequestVote}

/-- **Standing for election.** -/
theorem Good.startElection {r : Res RequestVote} (h : Good c g) (hmem : candidate ∈ c.ids)
    (hrun : (onNode candidate RaftNode.startElection).run c = (r, c')) :
    Good c' g ∧ ∃ n', c' = c.setNode candidate n' ∧ ∀ request, r = .ok request →
      c'.Standing candidate request ∧ (c.nodes candidate).currentTerm < request.term := by
  obtain ⟨n', hnode, rfl⟩ := run_onNode hrun
  have hok := h.node candidate hmem
  obtain ⟨s, hs⟩ := hok.stores
  rcases RaftNode.startElection_spec hs hnode with ⟨rfl, e, rfl⟩ | ⟨term, w, hlt, rfl, hkept, hreq⟩
  · rw [setNode_eq_self]
    exact ⟨h, _, setNode_eq_self.symm, fun request hr => (nomatch hr)⟩
  · refine ⟨?_, _, rfl, fun request hr => ?_⟩
    · refine h.keepLog hmem hkept rfl rfl rfl rfl (Or.inl hlt) (fun p hp hne => ?_)
        fun hrole => (nomatch hrole)
      cases hp
      exact absurd hok.id hne
    · obtain ⟨rfl, hp⟩ := hreq request hr
      refine ⟨⟨hmem, hok.id, ?_, ?_, ?_, ?_, ?_⟩, hlt⟩
      · rw [setNode_self]
      · rw [setNode_self, hok.id]
      · rw [setNode_self]; rfl
      · rw [setNode_self]; rfl
      · rw [setNode_self]; exact hp

/-- A change of another node does not matter to a candidate and its voters. -/
theorem Standing.setNode {q : U64} {n' : RaftNode} (h : Standing c candidate request)
    (hne : candidate ≠ q) : Standing (c.setNode q n') candidate request := by
  obtain ⟨h1, h2, h3, h4, h5, h6, h7⟩ := h
  rw [← setNode_of_ne (c := c) (n := n') hne] at h3 h4 h5 h6 h7
  exact ⟨h1, h2, h3, h4, h5, h6, h7⟩

theorem Supports.setNode {q p term : U64} {n' : RaftNode} (h : Supports c candidate term p)
    (hne : candidate ≠ q) (hpq : p ≠ q) : Supports (c.setNode q n') candidate term p := by
  obtain ⟨h1, h2, h3, h4⟩ := h
  rw [← setNode_of_ne (c := c) (n := n') hpq] at h1 h2 h3 h4
  rw [← setNode_of_ne (c := c) (n := n') hne] at h4
  exact ⟨h1, h2, h3, h4⟩

theorem Good.standing_disk (h : Good c g) (hst : Standing c candidate request) :
    (c.nodes candidate).disk.term = request.term := by
  rw [h.disk_eq hst.mem hst.persistable]
  exact hst.term

/-- **Asking one node for its vote.** -/
theorem Good.requestVote {peer : U64} {r : Res VoteResponse} (h : Good c g)
    (hst : Standing c candidate request) (hmem : peer ∈ c.ids) (hne : candidate ≠ peer)
    (hnew : ¬ ((c.nodes peer).currentTerm = request.term ∧ (c.nodes peer).votedFor = some candidate))
    (hrun : (onNode peer (RaftNode.requestVote request)).run c = (r, c')) :
    Good c' g ∧ ∃ n', c' = c.setNode peer n' ∧ ∀ response, r = .ok response → response.granted = true →
      c'.Supports candidate request.term peer := by
  obtain ⟨n', hnode, rfl⟩ := run_onNode hrun
  obtain ⟨s, hs⟩ := (h.node peer hmem).stores
  rcases RaftNode.requestVote_spec hs hnode with ⟨rfl, -, rfl⟩ | hv
  · rw [setNode_eq_self]
    exact ⟨h, _, setNode_eq_self.symm, fun response hr hg => by cases hr; cases hg⟩
  · obtain ⟨vote, role, leaderId, w, hn'⟩ := hv.rest
    have hlog : n'.log = (c.nodes peer).log := by rw [hn']
    have hterm : n'.currentTerm = request.term := by rw [hn']
    have hgood : Good (c.setNode peer n') g := by
      refine h.keepLog hmem hv.kept (by rw [hn']) hlog (by rw [hn']) (by rw [hn']) ?_ (fun p hp hpq => ?_)
        fun hrole => ?_
      · rw [hterm]
        rcases hv.vote with ⟨hlt, -⟩ | ⟨heq, hvote⟩
        · exact Or.inl hlt
        · exact Or.inr ⟨heq.symm, hvote.symm.imp_left And.left⟩
      · rw [hterm]
        -- the vote is for the candidate, or it is an old one
        have hcand : p = candidate →
            p ∈ c.ids ∧ request.term ≤ (c.nodes p).disk.term := by
          rintro rfl
          exact ⟨hst.mem, (h.standing_disk hst).ge⟩
        rcases hv.vote with ⟨-, hvote | hvote⟩ | ⟨heq, hvote | ⟨-, hvote⟩⟩
        · rw [hvote] at hp; cases hp
        · rw [hvote, hst.id] at hp; cases hp; exact hcand rfl
        · rw [hvote] at hp
          obtain ⟨h1, h2⟩ := h.inv.memVote peer (List.mem_toFinset.2 hmem) p hp hpq
          exact ⟨List.mem_toFinset.1 h1, heq ▸ h2⟩
        · rw [hvote, hst.id] at hp; cases hp; exact hcand rfl
      · rw [hterm]
        exact (hv.role hrole).imp_right Eq.symm
    refine ⟨hgood, n', rfl, fun response hr hg => ?_⟩
    obtain ⟨hvote, hup, hp⟩ := (hv.granted response hr).2 hg
    rw [hst.id] at hvote hp
    have hp : Persistable n'.log := hp.resolve_right hnew
    have hdisk : n'.disk = n'.mem := by
      have := hgood.disk_eq (q := peer) hmem (by rw [setNode_self]; exact hp)
      rwa [setNode_self] at this
    refine ⟨?_, ?_, ?_, ?_⟩
    · rw [setNode_self, hterm]
    · rw [setNode_self, hvote]
    · rw [setNode_self, hdisk]
      exact Or.inr ⟨hterm, hvote⟩
    · rw [setNode_self, setNode_of_ne hne, hlog]
      simp only [RaftNode.upToDate, Bool.or_eq_true, Bool.and_eq_true, decide_eq_true_eq, hst.index,
        hst.last] at hup
      exact hup

end Vote

/-! ## The loop over the peers -/

/-- The state of an election: a candidate with the votes of `Q`, which has not asked `peers` yet. -/
structure Polling (c : RaftCluster) (g : History) (candidate : U64) (request : RequestVote)
    (peers : List U64) (Q : Finset U64) : Prop where
  good : Good c g
  standing : Standing c candidate request
  nodup : peers.Nodup
  known : ∀ p ∈ peers, p ∈ c.ids
  fresh : ∀ p ∈ peers, p ≠ candidate → p ∉ Q ∧
    ¬ ((c.nodes p).currentTerm = request.term ∧ (c.nodes p).votedFor = some candidate)
  subset : Q ⊆ c.ids.toFinset
  votes : ∀ q ∈ Q, Supports c candidate request.term q

section Election
variable {c c' : RaftCluster} {g : History} {candidate : U64} {request : RequestVote} {Q : Finset U64}

theorem Polling.skip {peer : U64} {peers : List U64} (h : Polling c g candidate request (peer :: peers) Q) :
    Polling c g candidate request peers Q :=
  ⟨h.good, h.standing, h.nodup.of_cons, fun p hp => h.known p (List.mem_cons_of_mem _ hp),
    fun p hp => h.fresh p (List.mem_cons_of_mem _ hp), h.subset, h.votes⟩

/-- The vote of the next peer. -/
theorem Polling.next {peer : U64} {peers : List U64} {n' : RaftNode}
    (h : Polling c g candidate request (peer :: peers) Q) (hne : candidate ≠ peer)
    (hgood : Good (c.setNode peer n') g) :
    Polling (c.setNode peer n') g candidate request peers Q ∧
      (Supports (c.setNode peer n') candidate request.term peer →
        Polling (c.setNode peer n') g candidate request peers (insert peer Q)) := by
  have hnotin : peer ∉ peers := (List.nodup_cons.1 h.nodup).1
  have hfresh : ∀ p ∈ peers, p ≠ candidate → p ∉ Q ∧
      ¬ (((c.setNode peer n').nodes p).currentTerm = request.term ∧
        ((c.setNode peer n').nodes p).votedFor = some candidate) := by
    intro p hp hpc
    have hpne : p ≠ peer := fun heq => hnotin (heq ▸ hp)
    rw [setNode_of_ne hpne]
    exact h.fresh p (List.mem_cons_of_mem _ hp) hpc
  have hvotes : ∀ q ∈ Q, Supports (c.setNode peer n') candidate request.term q := by
    intro q hq
    refine (h.votes q hq).setNode hne fun heq => ?_
    exact (h.fresh peer List.mem_cons_self hne.symm).1 (heq ▸ hq)
  have hpeers : ∀ p ∈ peers, p ∈ (c.setNode peer n').ids :=
    fun p hp => h.known p (List.mem_cons_of_mem _ hp)
  refine ⟨⟨hgood, h.standing.setNode hne, h.nodup.of_cons, hpeers, hfresh, h.subset, hvotes⟩, fun hs =>
    ⟨hgood, h.standing.setNode hne, h.nodup.of_cons, hpeers, fun p hp hpc => ⟨?_, (hfresh p hp hpc).2⟩,
      ?_, ?_⟩⟩
  · rw [Finset.mem_insert, not_or]
    exact ⟨fun heq => hnotin (heq ▸ hp), (hfresh p hp hpc).1⟩
  · exact Finset.insert_subset (List.mem_toFinset.2 (h.known peer List.mem_cons_self)) h.subset
  · intro q hq
    rcases Finset.mem_insert.1 hq with rfl | hq
    · exact hs
    · exact hvotes q hq

/-- **The loop of `elect`** counts the nodes that support the candidate. -/
theorem collectVotes_spec (peers : List U64) : ∀ {c : RaftCluster} {Q : Finset U64} {r : Res (Option ℕ)},
    Polling c g candidate request peers Q →
    (collectVotes candidate request peers Q.card).run c = (r, c') →
    Good c' g ∧ SameNet c c' ∧ ∀ votes, r = .ok (some votes) →
      ∃ Q' : Finset U64, Q'.card = votes ∧ Polling c' g candidate request [] Q' := by
  induction peers with
  | nil =>
    intro c Q r h hrun
    cases hrun
    exact ⟨h.good, ⟨rfl, rfl, rfl, rfl⟩, fun votes hr => by cases hr; exact ⟨Q, rfl, h⟩⟩
  | cons peer peers ih =>
    intro c Q r h hrun
    rw [collectVotes, Act.run_bind_ok (Act.run_gets _ c)] at hrun
    by_cases hpass : c.passedOver candidate peer = true
    · rw [if_pos hpass] at hrun
      exact ih h.skip hrun
    · rw [if_neg hpass] at hrun
      have hne : candidate ≠ peer := by
        rintro rfl
        simp [passedOver] at hpass
      have hpeer := h.known peer List.mem_cons_self
      rcases Act.run_bind_cases hrun with ⟨response, c₁, hvote, hrun⟩ | ⟨e, hvote, rfl⟩
      · obtain ⟨hgood, n', rfl, hsup⟩ := h.good.requestVote h.standing hpeer hne
          (h.fresh peer List.mem_cons_self hne.symm).2 hvote
        obtain ⟨hnext, hnext'⟩ := h.next hne hgood
        by_cases hahead : response.term > request.term
        · rw [if_pos hahead] at hrun
          rcases Act.run_bind_cases hrun with ⟨u, c₂, hobs, hrun⟩ | ⟨e, hobs, rfl⟩
          · cases hrun
            obtain ⟨n'', rfl, hgood'⟩ := hgood.observeTerm h.standing.mem hobs
            exact ⟨hgood', ⟨rfl, rfl, rfl, rfl⟩, fun votes hr => (nomatch hr)⟩
          · obtain ⟨n'', rfl, hgood'⟩ := hgood.observeTerm h.standing.mem hobs
            exact ⟨hgood', ⟨rfl, rfl, rfl, rfl⟩, fun votes hr => (nomatch hr)⟩
        · rw [if_neg hahead] at hrun
          have hnot : peer ∉ Q := (h.fresh peer List.mem_cons_self hne.symm).1
          by_cases hg : response.granted = true
          · rw [if_pos hg, ← Finset.card_insert_of_notMem hnot] at hrun
            obtain ⟨h1, h2, h3⟩ := ih (hnext' (hsup response rfl hg)) hrun
            exact ⟨h1, (sameNet_setNode c peer n').trans h2, h3⟩
          · rw [if_neg hg] at hrun
            obtain ⟨h1, h2, h3⟩ := ih hnext hrun
            exact ⟨h1, (sameNet_setNode c peer n').trans h2, h3⟩
      · obtain ⟨hgood, n', rfl, -⟩ := h.good.requestVote h.standing hpeer hne
          (h.fresh peer List.mem_cons_self hne.symm).2 hvote
        exact ⟨hgood, ⟨rfl, rfl, rfl, rfl⟩, fun votes hr => (nomatch hr)⟩

/-- **Winning.** -/
theorem Polling.win (h : Polling c g candidate request [] Q) (hcard : Q.card * 2 > c.ids.length)
    (hnew : g.elected request.term ≠ some candidate) :
    ∃ g', Evolves c g (c.setNode candidate (c.nodes candidate).becomeLeader) g' := by
  have hmem : candidate ∈ c.ids.toFinset := List.mem_toFinset.2 h.standing.mem
  have hmaj : Majority c.ids.toFinset fun q => ((c.world.mem q).term = request.term ∧
      (c.world.mem q).vote = some candidate) ∧ Backs request.term candidate (c.world.disk q) ∧
      UpToDate Entry.term 0 (c.world.mem candidate).log (c.world.mem q).log := by
    refine ⟨Q, h.subset, ?_, fun q hq => ?_⟩
    · rw [List.toFinset_card_of_nodup h.good.nodup]
      omega
    · have hs := h.votes q hq
      exact ⟨⟨hs.term, hs.vote⟩, hs.disk, hs.upToDate⟩
  obtain ⟨hnone, hinv⟩ := h.good.inv.win (fun t => Fin.zero_le t) hmem h.standing.term.symm
    (h.good.standing_disk h.standing).ge hnew hmaj
  exact ⟨_, h.good.replace hinv (by simp [RaftNode.becomeLeader]) (Or.inr ⟨rfl, Or.inl rfl⟩) rfl rfl le_rfl rfl,
    elect_later hnone _ _, rfl, fun q => List.prefix_refl _⟩

/-- **`elect`**. -/
theorem Good.elect {r : Res Bool} (h : Good c g) (hrun : (elect candidate).run c = (r, c')) :
    ∃ g', Evolves c g c' g' := by
  rw [RaftCluster.elect, Act.run_bind_ok (Act.run_gets _ c)] at hrun
  by_cases hstop : candidate ∈ c.stopped
  · rw [if_pos hstop] at hrun
    cases hrun
    exact ⟨g, Evolves.refl h⟩
  rw [if_neg hstop] at hrun
  by_cases hmem : candidate ∉ c.ids
  · rw [if_pos hmem] at hrun
    cases hrun
    exact ⟨g, Evolves.refl h⟩
  · rw [if_neg hmem] at hrun
    have hmem : candidate ∈ c.ids := not_not.1 hmem
    rcases Act.run_bind_cases hrun with ⟨request, c₁, hstart, hrun⟩ | ⟨e, hstart, rfl⟩
    · obtain ⟨hgood, n', rfl, hst⟩ := h.startElection hmem hstart
      obtain ⟨hst, hlt⟩ := hst request rfl
      -- the term is new to the disk of the candidate: nobody has voted for it, nor has it led
      have hdisk : (c.nodes candidate).disk.term < request.term :=
        (h.inv.ordered candidate (List.mem_toFinset.2 hmem)).trans_lt hlt
      have hnew : g.elected request.term ≠ some candidate :=
        fun hel => absurd (h.inv.elected _ _ hel).2.1 (not_le.2 hdisk)
      have hpoll : Polling (c.setNode candidate n') g candidate request c.ids {candidate} := by
        refine ⟨hgood, hst, h.nodup, fun p hp => hp, fun p hp hpc => ⟨by simpa using hpc, ?_⟩, ?_, ?_⟩
        · rw [setNode_of_ne hpc]
          rintro ⟨hterm, hvote⟩
          have := (h.inv.memVote p (List.mem_toFinset.2 hp) candidate hvote hpc.symm).2
          exact absurd (hterm ▸ this) (not_le.2 hdisk)
        · simpa using hmem
        · intro q hq
          rw [Finset.mem_singleton.1 hq]
          refine ⟨hst.term, hst.vote, ?_, Or.inr ⟨rfl, le_rfl⟩⟩
          rw [hgood.disk_eq hst.mem hst.persistable]
          exact Or.inr ⟨hst.term, hst.vote⟩
      rcases Act.run_bind_cases hrun with ⟨votes, c₂, hloop, hrun⟩ | ⟨e, hloop, rfl⟩
      · obtain ⟨hgood', hnet, hvotes⟩ := collectVotes_spec c.ids hpoll hloop
        have hev : Evolves c g c₂ g := hgood'.evolves hnet.1 hnet.2.2.2
        cases votes with
        | none =>
          cases hrun
          exact ⟨g, hev⟩
        | some votes =>
          obtain ⟨Q', rfl, hpoll'⟩ := hvotes votes rfl
          dsimp only at hrun
          split_ifs at hrun with hcard
          · rw [Act.run_bind] at hrun
            cases hrun
            obtain ⟨g', hev'⟩ := hpoll'.win (by rw [hnet.1]; exact hcard) hnew
            exact ⟨g', hev.trans hev'⟩
          · cases hrun
            exact ⟨g, hev⟩
      · obtain ⟨hgood', hnet, -⟩ := collectVotes_spec c.ids hpoll hloop
        exact ⟨g, hgood'.evolves hnet.1 hnet.2.2.2⟩
    · obtain ⟨hgood, n', rfl, -⟩ := h.startElection hmem hstart
      exact ⟨g, hgood.evolves rfl rfl⟩

/-- **`elect_by_timeout`**. -/
theorem Good.electByTimeout {r : Res (Option U64)} (h : Good c g) (hrun : electByTimeout.run c = (r, c')) :
    ∃ g', Evolves c g c' g' := by
  rw [RaftCluster.electByTimeout, Act.run_bind_ok (Act.run_gets _ c)] at hrun
  split at hrun
  · cases hrun
    exact ⟨g, Evolves.refl h⟩
  · rcases Act.run_bind_cases hrun with ⟨won, c₁, helect, hrun⟩ | ⟨e, helect, rfl⟩
    · cases hrun
      exact h.elect helect
    · exact h.elect helect

end Election

end RaftCluster

end Raft

end NutDb
