/-
  Elections that are tried again.

  An election is lost because a peer is in a later term, and then the candidate
  has learned of this term, or because too few peers grant their votes, and then
  all of them are in its term.  Either way fewer peers are ahead of the candidate
  afterwards, so a candidate that a majority accepts wins in the end, and then it
  gets commands acknowledged.
-/
import NutDb.Raft.Acknowledge
import NutDb.Raft.Links

namespace NutDb

open Lib Lib.Raft

namespace Raft

/-! ## Voters -/

namespace RaftNode
variable {n : RaftNode}

/-- Whether a node grants its vote. -/
def granting (n : RaftNode) (request : RequestVote) : Bool :=
  decide (n.currentTerm ≤ request.term) && (n.stepDown request.term).grants request

/-- `request_vote`, at a node that can write its log. -/
theorem requestVote_ok (hp : Persistable n.log) (request : RequestVote) :
    ∃ n', (requestVote request).run n =
      (.ok ⟨max n.currentTerm request.term, n.granting request⟩, n') ∧
      n'.currentTerm = max n.currentTerm request.term ∧ n'.log = n.log := by
  rw [requestVote, Act.run_bind_ok (Act.run_gets _ n)]
  by_cases hlt : request.term < n.currentTerm
  · refine ⟨n, ?_, (max_eq_left hlt.le).symm, rfl⟩
    rw [if_pos hlt, granting, decide_eq_false (not_le.2 hlt), max_eq_left hlt.le]
    rfl
  · have hle := not_lt.1 hlt
    obtain ⟨vote, role, leaderId, hdown, -⟩ := stepDown_eq hle
    obtain ⟨vote', hcast, -⟩ := castVote_eq (n.stepDown request.term) request
    have hterm : (n.stepDown request.term).currentTerm = request.term := by rw [hdown]
    have hlog : ((n.stepDown request.term).castVote request).log = n.log := by rw [hcast, hdown]
    obtain ⟨w, hw⟩ := persistIf_ok (n := (n.stepDown request.term).castVote request) (hlog ▸ hp)
      (decide (n.currentTerm < request.term) || (n.stepDown request.term).newVote request)
    refine ⟨{ (n.stepDown request.term).castVote request with wal := w }, ?_, ?_, hlog⟩
    · rw [if_neg hlt, Act.run_bind_ok (Act.run_modify _ n), Act.run_bind_ok hw, hterm, granting,
        decide_eq_true hle, max_eq_right hle, Bool.true_and]
      rfl
    · rw [max_eq_right hle, hcast, hdown]

/-- A node in an earlier term grants its vote to a candidate with a log that is up to date. -/
theorem granting_of_lt {request : RequestVote} (hlt : n.currentTerm < request.term)
    (hup : n.upToDate request = true) : n.granting request = true := by
  have hsame : (n.stepDown request.term).upToDate request = n.upToDate request := by
    rw [stepDown, if_pos hlt]
    rfl
  rw [granting, decide_eq_true hlt.le, Bool.true_and, grants, hsame, hup, stepDown, if_pos hlt]
  rfl

/-- `observe_term`, at a node that can write its log. -/
theorem observeTerm_ok {term : U64} (hp : Persistable n.log) (hlt : n.currentTerm < term) :
    ∃ n', (observeTerm term).run n = (.ok (), n') ∧ n'.currentTerm = term ∧ n'.log = n.log := by
  obtain ⟨w, hw⟩ := persist_ok
    (n := { n with currentTerm := term, votedFor := none, role := .follower, leaderId := none }) hp
  rw [observeTerm, Act.run_bind_ok (Act.run_gets _ n), if_pos hlt, Act.run_bind_ok (Act.run_modify _ n), hw]
  exact ⟨_, rfl, rfl, rfl⟩

/-- `start_election`, at a node that can write its log. -/
theorem startElection_ok {term : U64} (hp : Persistable n.log) (hterm : n.currentTerm.checkedAdd 1 = some term) :
    ∃ n', startElection.run n = (.ok ⟨term, n.id, n.lastLogIndex, n.lastLogTerm⟩, n') ∧
      n'.currentTerm = term ∧ n'.log = n.log := by
  obtain ⟨w, hw⟩ := persist_ok
    (n := { n with currentTerm := term, role := .candidate, leaderId := none, votedFor := some n.id }) hp
  refine ⟨{ n with currentTerm := term, role := .candidate, leaderId := none, votedFor := some n.id, wal := w },
    ?_, rfl, rfl⟩
  rw [startElection, Act.run_bind_ok (Act.run_gets _ n), hterm]
  dsimp only
  rw [Act.run_bind_ok (Act.run_modify _ n), Act.run_bind_ok hw]
  rfl

end RaftNode

namespace RaftCluster

/-! ## One election -/

section Election
variable {c c' : RaftCluster} {candidate : U64} {request : RequestVote}

/-- Clusters that differ in terms, votes and roles only. -/
structure SameLogs (c c' : RaftCluster) : Prop where
  net : SameNet c c'
  log : ∀ q, (c'.nodes q).log = (c.nodes q).log

theorem SameLogs.refl (c : RaftCluster) : SameLogs c c := ⟨⟨rfl, rfl, rfl, rfl⟩, fun _ => rfl⟩

theorem SameLogs.trans {c'' : RaftCluster} (h : SameLogs c c') (h' : SameLogs c' c'') : SameLogs c c'' :=
  ⟨h.net.trans h'.net, fun q => (h'.log q).trans (h.log q)⟩

theorem sameLogs_setNode {q : U64} {n' : RaftNode} (h : n'.log = (c.nodes q).log) :
    SameLogs c (c.setNode q n') := by
  refine ⟨sameNet_setNode c q n', fun p => ?_⟩
  by_cases hp : p = q
  · rw [hp, setNode_self, h]
  · rw [setNode_of_ne hp]

theorem SameNet.passedOver (h : SameNet c c') (a b : U64) : c'.passedOver a b = c.passedOver a b := by
  simp only [RaftCluster.passedOver, reachable, h.2.1, h.2.2.1]

/-- The peers that an election asks. -/
def asked (c : RaftCluster) (candidate : U64) (peers : List U64) : List U64 :=
  peers.filter fun q => !c.passedOver candidate q

theorem mem_asked {peers : List U64} {q : U64} :
    q ∈ c.asked candidate peers ↔ q ∈ peers ∧ c.passedOver candidate q = false := by
  simp [asked]

/-- The peers that grant their votes. -/
def backers (c : RaftCluster) (candidate : U64) (request : RequestVote) (peers : List U64) : List U64 :=
  (c.asked candidate peers).filter fun q => (c.nodes q).granting request

/-- An election in which a peer was ahead. -/
structure Outrun (c c' : RaftCluster) (candidate t : U64) (peers : List U64) : Prop where
  same : SameLogs c c'
  ahead : ∃ p ∈ c.asked candidate peers, t < (c.nodes p).currentTerm ∧
    (c'.nodes candidate).currentTerm = (c.nodes p).currentTerm
  terms : ∀ q, q ≠ candidate → (c'.nodes q).currentTerm = (c.nodes q).currentTerm ∨
    (c'.nodes q).currentTerm = t

/-- An election in which the votes were counted. -/
structure Counted (c c' : RaftCluster) (candidate t : U64) (peers : List U64) : Prop where
  same : SameLogs c c'
  behind : ∀ q ∈ c.asked candidate peers, (c.nodes q).currentTerm ≤ t ∧ (c'.nodes q).currentTerm = t
  rest : ∀ q, q ∉ c.asked candidate peers → c'.nodes q = c.nodes q

section Cons
variable {peer t : U64} {peers : List U64} {n' : RaftNode}

theorem asked_skip (hpass : c.passedOver candidate peer = true) :
    c.asked candidate (peer :: peers) = c.asked candidate peers :=
  List.filter_cons_of_neg (by simp [hpass])

theorem asked_cons (hpass : c.passedOver candidate peer = false) :
    c.asked candidate (peer :: peers) = peer :: c.asked candidate peers :=
  List.filter_cons_of_pos (by simp [hpass])

theorem asked_same (h : SameNet c c') : c'.asked candidate peers = c.asked candidate peers := by
  simp only [asked, h.passedOver]

/-- A node that is not asked does not matter to the votes. -/
theorem backers_setNode (h : peer ∉ c.asked candidate peers) (n' : RaftNode) :
    (c.setNode peer n').backers candidate request peers = c.backers candidate request peers := by
  rw [backers, backers, asked_same (sameNet_setNode c peer n')]
  refine List.filter_congr fun q hq => ?_
  have hqp : q ≠ peer := fun heq => h (heq ▸ hq)
  rw [setNode_of_ne hqp]

theorem Outrun.skip (hpass : c.passedOver candidate peer = true) (h : Outrun c c' candidate t peers) :
    Outrun c c' candidate t (peer :: peers) :=
  ⟨h.same, by rw [asked_skip hpass]; exact h.ahead, h.terms⟩

theorem Counted.skip (hpass : c.passedOver candidate peer = true) (h : Counted c c' candidate t peers) :
    Counted c c' candidate t (peer :: peers) :=
  ⟨h.same, by rw [asked_skip hpass]; exact h.behind, by rw [asked_skip hpass]; exact h.rest⟩

/-- The first peer is ahead: the candidate takes its term. -/
theorem outrun_first {m : RaftNode} (hpass : c.passedOver candidate peer = false) (hahead : t < (c.nodes peer).currentTerm)
    (hlog : n'.log = (c.nodes peer).log) (hterm : n'.currentTerm = (c.nodes peer).currentTerm)
    (hlog' : m.log = ((c.setNode peer n').nodes candidate).log) (hterm' : m.currentTerm = (c.nodes peer).currentTerm) :
    Outrun c ((c.setNode peer n').setNode candidate m) candidate t (peer :: peers) where
  same := (sameLogs_setNode hlog).trans (sameLogs_setNode hlog')
  ahead := ⟨peer, by rw [asked_cons hpass]; exact List.mem_cons_self, hahead, by rw [setNode_self, hterm']⟩
  terms q hq := by
    rw [setNode_of_ne hq]
    by_cases hqp : q = peer
    · exact Or.inl (by rw [hqp, setNode_self, hterm])
    · exact Or.inl (by rw [setNode_of_ne hqp])

theorem Outrun.cons (hpass : c.passedOver candidate peer = false) (hnotin : peer ∉ peers)
    (hlog : n'.log = (c.nodes peer).log) (hterm : n'.currentTerm = t)
    (h : Outrun (c.setNode peer n') c' candidate t peers) : Outrun c c' candidate t (peer :: peers) := by
  have hne : ∀ q, q ∈ peers → q ≠ peer := fun q hq heq => hnotin (heq ▸ hq)
  refine ⟨(sameLogs_setNode hlog).trans h.same, ?_, fun q hq => ?_⟩
  · obtain ⟨p, hp, hlt, heq⟩ := h.ahead
    rw [asked_same (sameNet_setNode c peer n')] at hp
    rw [setNode_of_ne (hne p (mem_asked.1 hp).1)] at hlt heq
    exact ⟨p, by rw [asked_cons hpass]; exact List.mem_cons_of_mem _ hp, hlt, heq⟩
  · by_cases hqp : q = peer
    · have := h.terms q hq
      rw [hqp, setNode_self, hterm, or_self] at this
      exact Or.inr (by rw [hqp]; exact this)
    · have := h.terms q hq
      rwa [setNode_of_ne hqp] at this

theorem Counted.cons (hpass : c.passedOver candidate peer = false) (hnotin : peer ∉ peers)
    (hlog : n'.log = (c.nodes peer).log) (hterm : n'.currentTerm = t) (hle : (c.nodes peer).currentTerm ≤ t)
    (h : Counted (c.setNode peer n') c' candidate t peers) : Counted c c' candidate t (peer :: peers) := by
  have hask : (c.setNode peer n').asked candidate peers = c.asked candidate peers :=
    asked_same (sameNet_setNode c peer n')
  have hpeer : c'.nodes peer = n' := by
    rw [h.rest peer fun hmem => hnotin (mem_asked.1 hmem).1, setNode_self]
  refine ⟨(sameLogs_setNode hlog).trans h.same, fun q hq => ?_, fun q hq => ?_⟩
  · rw [asked_cons hpass] at hq
    rcases List.mem_cons.1 hq with rfl | hq
    · exact ⟨hle, by rw [hpeer, hterm]⟩
    · have hne : q ≠ peer := fun heq => hnotin (heq ▸ (mem_asked.1 hq).1)
      have := h.behind q (hask ▸ hq)
      rwa [setNode_of_ne hne] at this
  · rw [asked_cons hpass, List.mem_cons, not_or] at hq
    rw [h.rest q (by rw [hask]; exact hq.2), setNode_of_ne hq.1]

end Cons

/-- **The loop of `elect`**, when everybody can write. -/
theorem collectVotes_run (peers : List U64) : ∀ {c : RaftCluster} (votes : ℕ), peers.Nodup →
    (∀ q ∈ c.asked candidate peers, Persistable (c.nodes q).log) → Persistable (c.nodes candidate).log →
    (c.nodes candidate).currentTerm = request.term →
    ∃ c', ((collectVotes candidate request peers votes).run c = (.ok none, c') ∧
        Outrun c c' candidate request.term peers) ∨
      ((collectVotes candidate request peers votes).run c =
          (.ok (some (votes + (c.backers candidate request peers).length)), c') ∧
        Counted c c' candidate request.term peers) := by
  induction peers with
  | nil => exact fun {c} votes _ _ _ _ => ⟨c, Or.inr ⟨rfl, SameLogs.refl c, by simp [asked], fun _ _ => rfl⟩⟩
  | cons peer peers ih =>
    intro c votes hnodup hps hp hterm
    obtain ⟨hnotin, hnodup⟩ := List.nodup_cons.1 hnodup
    rw [collectVotes, Act.run_bind_ok (Act.run_gets _ c)]
    cases hpass : c.passedOver candidate peer with
    | true =>
      rw [if_pos rfl]
      rw [asked_skip hpass] at hps
      obtain ⟨c', hrest⟩ := ih votes hnodup hps hp hterm
      refine ⟨c', ?_⟩
      rcases hrest with ⟨hrun, hout⟩ | ⟨hrun, hcounted⟩
      · exact Or.inl ⟨hrun, hout.skip hpass⟩
      · refine Or.inr ⟨?_, hcounted.skip hpass⟩
        rw [hrun, backers, backers, asked_skip hpass]
    | false =>
      have hne : candidate ≠ peer := by
        rintro rfl
        simp [passedOver] at hpass
      rw [asked_cons hpass] at hps
      obtain ⟨n', hvote, hterm', hlog⟩ :=
        RaftNode.requestVote_ok (hps peer List.mem_cons_self) request
      rw [if_neg (by simp), Act.run_bind_ok (onNode_of_run hvote)]
      have hself : (c.setNode peer n').nodes candidate = c.nodes candidate := setNode_of_ne hne
      by_cases hahead : request.term < (c.nodes peer).currentTerm
      · -- the candidate learns of a later term
        have hmax := max_eq_left hahead.le
        have hbelow : ((c.setNode peer n').nodes candidate).currentTerm < (c.nodes peer).currentTerm := by
          rw [hself, hterm]
          exact hahead
        obtain ⟨n'', hobs, hterm'', hlog''⟩ := RaftNode.observeTerm_ok (by rw [hself]; exact hp) hbelow
        rw [if_pos (by rw [hmax]; exact hahead), hmax, Act.run_bind_ok (onNode_of_run hobs)]
        exact ⟨_, Or.inl ⟨rfl, outrun_first hpass hahead hlog (hterm'.trans hmax) hlog'' hterm''⟩⟩
      · have hle := not_lt.1 hahead
        have hmax := max_eq_right hle
        rw [if_neg (by rw [hmax]; exact lt_irrefl _)]
        have hps' : ∀ q ∈ (c.setNode peer n').asked candidate peers,
            Persistable ((c.setNode peer n').nodes q).log := by
          intro q hq
          rw [asked_same (sameNet_setNode c peer n')] at hq
          rw [(sameLogs_setNode hlog).log q]
          exact hps q (List.mem_cons_of_mem _ hq)
        obtain ⟨c', hrest⟩ := ih (if (c.nodes peer).granting request then votes + 1 else votes) hnodup hps'
          (by rw [hself]; exact hp) (by rw [hself]; exact hterm)
        refine ⟨c', ?_⟩
        rcases hrest with ⟨hrun, hout⟩ | ⟨hrun, hcounted⟩
        · exact Or.inl ⟨hrun, hout.cons hpass hnotin hlog (hterm'.trans hmax)⟩
        · refine Or.inr ⟨?_, hcounted.cons hpass hnotin hlog (hterm'.trans hmax) hle⟩
          rw [hrun, backers_setNode (fun hmem => hnotin (mem_asked.1 hmem).1), backers, backers, asked_cons hpass,
            List.filter_cons]
          split_ifs with hgrant
          · rw [List.length_cons, Nat.add_assoc, Nat.add_comm 1]
          · rfl

/-- The vote request of a candidate that stands for a term. -/
def ballot (c : RaftCluster) (candidate t : U64) : RequestVote :=
  ⟨t, (c.nodes candidate).id, (c.nodes candidate).lastLogIndex, (c.nodes candidate).lastLogTerm⟩

/-- An election in which nobody was ahead. -/
structure Polled (c c' : RaftCluster) (candidate t : U64) (won : Bool) : Prop where
  same : SameLogs c c'
  self : (c'.nodes candidate).currentTerm = t
  behind : ∀ q ∈ c.asked candidate c.ids, (c.nodes q).currentTerm ≤ t ∧ (c'.nodes q).currentTerm = t
  role : won = true → (c'.nodes candidate).role = .leader

theorem asked_ne {peers : List U64} {q : U64} (h : q ∈ c.asked candidate peers) : q ≠ candidate := by
  obtain ⟨-, hpass⟩ := mem_asked.1 h
  rintro rfl
  simp [passedOver] at hpass

/-- What a candidate makes of the votes. -/
theorem elect_of_votes {request : RequestVote} {r : Res (Option ℕ)} (hmem : candidate ∈ c.ids)
    (hstop : candidate ∉ c.stopped)
    (hstart : (onNode candidate RaftNode.startElection).run c = (.ok request, c₁))
    (hr : (collectVotes candidate request c.ids 1).run c₁ = (r, c₂)) :
    (elect candidate).run c = (do
      match r with
      | .error e => Act.lift (.error e)
      | .ok none => return false
      | .ok (some votes) =>
        if votes * 2 > c.ids.length then do
          onNode candidate (Act.modify RaftNode.becomeLeader)
          return true
        else return false : Act RaftCluster Bool).run c₂ := by
  rw [elect, Act.run_bind_ok (Act.run_gets _ c), if_neg hstop, if_neg (not_not.2 hmem), Act.run_bind_ok hstart]
  rcases r with e | votes
  · rw [Act.run_bind_error hr]
    rfl
  · rw [Act.run_bind_ok hr]
    cases votes <;> rfl

/-- **`elect`**, when everybody can write. -/
theorem elect_run {t : U64} (hnodup : c.ids.Nodup) (hmem : candidate ∈ c.ids) (hstop : candidate ∉ c.stopped)
    (hp : Persistable (c.nodes candidate).log)
    (hps : ∀ q ∈ c.asked candidate c.ids, Persistable (c.nodes q).log)
    (ht : (c.nodes candidate).currentTerm.checkedAdd 1 = some t) :
    ∃ c', ((elect candidate).run c = (.ok false, c') ∧ Outrun c c' candidate t c.ids) ∨
      ((elect candidate).run c = (.ok (decide (c.ids.length <
          2 * (1 + (c.backers candidate (c.ballot candidate t) c.ids).length))), c') ∧
        Polled c c' candidate t (decide (c.ids.length <
          2 * (1 + (c.backers candidate (c.ballot candidate t) c.ids).length)))) := by
  obtain ⟨n', hstart, hterm, hlog⟩ := RaftNode.startElection_ok hp ht
  obtain ⟨c₁, hc₁⟩ : ∃ c₁, c₁ = c.setNode candidate n' := ⟨_, rfl⟩
  have hother : ∀ q, q ≠ candidate → c₁.nodes q = c.nodes q := fun q hq => by rw [hc₁, setNode_of_ne hq]
  have hself : c₁.nodes candidate = n' := by rw [hc₁, setNode_self]
  have hlogs : SameLogs c c₁ := hc₁ ▸ sameLogs_setNode hlog
  have hask : c₁.asked candidate c.ids = c.asked candidate c.ids := asked_same hlogs.net
  have hbackers : c₁.backers candidate (c.ballot candidate t) c.ids =
      c.backers candidate (c.ballot candidate t) c.ids :=
    hc₁ ▸ backers_setNode (fun hmem => asked_ne hmem rfl) n'
  have hstart : (onNode candidate RaftNode.startElection).run c = (.ok (c.ballot candidate t), c₁) :=
    hc₁ ▸ onNode_of_run hstart
  have hlog₁ : Persistable (c₁.nodes candidate).log := by rw [hself, hlog]; exact hp
  have hterm₁ : (c₁.nodes candidate).currentTerm = (c.ballot candidate t).term := by rw [hself]; exact hterm
  obtain ⟨c₂, hloop⟩ := collectVotes_run c.ids 1 hnodup
    (fun q hq => by rw [hlogs.log]; exact hps q (hask ▸ hq)) hlog₁ hterm₁
  rcases hloop with ⟨hloop, hout⟩ | ⟨hloop, hcounted⟩
  · refine ⟨c₂, Or.inl ⟨elect_of_votes hmem hstop hstart hloop, hlogs.trans hout.same, ?_, fun q hq => ?_⟩⟩
    · obtain ⟨p, hpmem, hlt, heq⟩ := hout.ahead
      rw [hask] at hpmem
      rw [hother p (asked_ne hpmem)] at hlt heq
      exact ⟨p, hpmem, hlt, heq⟩
    · rw [← hother q hq]
      exact hout.terms q hq
  · have hcand : c₂.nodes candidate = n' := by
      rw [hcounted.rest candidate fun hq => asked_ne hq rfl, hself]
    have hsame := hlogs.trans hcounted.same
    have hbehind : ∀ q ∈ c.asked candidate c.ids, (c.nodes q).currentTerm ≤ t ∧ (c₂.nodes q).currentTerm = t := by
      intro q hq
      have := hcounted.behind q (hask.symm ▸ hq)
      rwa [hother q (asked_ne hq)] at this
    have hresult := elect_of_votes hmem hstop hstart hloop
    rw [hbackers] at hresult
    dsimp only at hresult
    by_cases hmaj : c.ids.length < 2 * (1 + (c.backers candidate (c.ballot candidate t) c.ids).length)
    · rw [decide_eq_true hmaj]
      rw [if_pos (by omega)] at hresult
      refine ⟨c₂.setNode candidate n'.becomeLeader, Or.inr ⟨?_, ?_, ?_, fun q hq => ?_, fun _ => ?_⟩⟩
      · rw [hresult, Act.run_bind_ok (onNode_of_run (Act.run_modify _ _)), hcand]
        rfl
      · exact hsame.trans (sameLogs_setNode (by rw [hcand]; rfl))
      · rw [setNode_self]
        exact hterm
      · rw [setNode_of_ne (asked_ne hq)]
        exact hbehind q hq
      · rw [setNode_self]
        rfl
    · rw [decide_eq_false hmaj]
      rw [if_neg (by omega)] at hresult
      exact ⟨c₂, Or.inr ⟨hresult, hsame, by rw [hcand]; exact hterm, hbehind, fun h => absurd h Bool.false_ne_true⟩⟩

end Election

/-! ## Elections again -/

section Again
variable {c c' : RaftCluster} {candidate t : U64}

/-- The peers that an election asks and that are ahead of the candidate. -/
def ahead (c : RaftCluster) (candidate : U64) : Finset U64 :=
  (c.asked candidate c.ids).toFinset.filter fun q => (c.nodes candidate).currentTerm < (c.nodes q).currentTerm

/-- The peers that an election asks and that have no better log than the candidate. -/
def supporters (c : RaftCluster) (candidate : U64) : List U64 :=
  (c.asked candidate c.ids).filter fun q => (c.nodes q).upToDate (c.ballot candidate 0)

theorem mem_ahead {q : U64} : q ∈ c.ahead candidate ↔
    q ∈ c.asked candidate c.ids ∧ (c.nodes candidate).currentTerm < (c.nodes q).currentTerm := by
  rw [ahead, Finset.mem_filter, List.mem_toFinset]

theorem SameLogs.asked (h : SameLogs c c') : c'.asked candidate c'.ids = c.asked candidate c.ids := by
  rw [asked_same h.net, h.net.1]

theorem SameLogs.upToDate (h : SameLogs c c') (q u : U64) :
    (c'.nodes q).upToDate (c'.ballot candidate u) = (c.nodes q).upToDate (c.ballot candidate t) := by
  have hterm : ∀ p, (c'.nodes p).lastLogTerm = (c.nodes p).lastLogTerm := fun p => by
    rw [RaftNode.lastLogTerm, RaftNode.lastLogTerm, h.log]
  have hindex : ∀ p, (c'.nodes p).lastLogIndex = (c.nodes p).lastLogIndex := fun p => by
    rw [RaftNode.lastLogIndex, RaftNode.lastLogIndex, h.log]
  rw [RaftNode.upToDate, RaftNode.upToDate, ballot, ballot, hterm, hterm, hindex, hindex]

theorem SameLogs.supporters (h : SameLogs c c') : c'.supporters candidate = c.supporters candidate := by
  rw [RaftCluster.supporters, RaftCluster.supporters, h.asked]
  exact List.filter_congr fun q _ => h.upToDate q 0

/-- **A lost election brings the candidate forward**: fewer peers are ahead of it. -/
theorem Outrun.ahead_lt (h : Outrun c c' candidate t c.ids) (ht : (c.nodes candidate).currentTerm < t) :
    (c'.ahead candidate).card < (c.ahead candidate).card := by
  obtain ⟨p, hp, hlt, heq⟩ := h.ahead
  have hsub : ∀ q ∈ c'.ahead candidate, q ∈ c.ahead candidate ∧ q ≠ p := by
    intro q hq
    obtain ⟨hask, hq⟩ := mem_ahead.1 hq
    rw [h.same.asked] at hask
    rw [heq] at hq
    rcases h.terms q (asked_ne hask) with hsame | hsame
    · rw [hsame] at hq
      refine ⟨mem_ahead.2 ⟨hask, ht.trans (hlt.trans hq)⟩, ?_⟩
      rintro rfl
      exact lt_irrefl _ hq
    · rw [hsame] at hq
      exact absurd hq hlt.asymm
  refine Finset.card_lt_card ⟨fun q hq => (hsub q hq).1, fun hsub' => ?_⟩
  exact (hsub p (hsub' (mem_ahead.2 ⟨hp, ht.trans hlt⟩))).2 rfl

theorem Polled.ahead_eq {won : Bool} (h : Polled c c' candidate t won) : c'.ahead candidate = ∅ := by
  refine Finset.eq_empty_of_forall_notMem fun q hq => ?_
  obtain ⟨hask, hlt⟩ := mem_ahead.1 hq
  rw [h.same.asked] at hask
  rw [h.self, (h.behind q hask).2] at hlt
  exact lt_irrefl _ hlt

/-- What a candidate needs to be elected in the end. -/
structure Electable (c : RaftCluster) (candidate : U64) : Prop where
  nodup : c.ids.Nodup
  mem : candidate ∈ c.ids
  running : candidate ∉ c.stopped
  persistable : ∀ q ∈ c.ids, Persistable (c.nodes q).log
  majority : c.ids.length < 2 * ((c.supporters candidate).length + 1)

theorem Electable.of_sameLogs (h : Electable c candidate) (hsame : SameLogs c c') : Electable c' candidate := by
  obtain ⟨h1, h2, h3, h4, h5⟩ := h
  refine ⟨hsame.net.1 ▸ h1, hsame.net.1 ▸ h2, hsame.net.2.1 ▸ h3, fun q hq => ?_, ?_⟩
  · rw [hsame.log]
    exact h4 q (hsame.net.1 ▸ hq)
  · rw [hsame.supporters, hsame.net.1]
    exact h5

/-- A candidate of which nobody is ahead has the votes of its supporters. -/
theorem Electable.wins (h : Electable c candidate) (hahead : c.ahead candidate = ∅)
    (ht : (c.nodes candidate).currentTerm < t) :
    c.ids.length < 2 * (1 + (c.backers candidate (c.ballot candidate t) c.ids).length) := by
  have hle : (c.supporters candidate).length ≤ (c.backers candidate (c.ballot candidate t) c.ids).length := by
    rw [supporters, backers, ← List.countP_eq_length_filter, ← List.countP_eq_length_filter]
    refine List.countP_mono_left fun q hq hup => ?_
    have hlt : (c.nodes q).currentTerm < t := by
      by_contra hge
      have : q ∈ c.ahead candidate := mem_ahead.2 ⟨hq, ht.trans_le (not_lt.1 hge)⟩
      rw [hahead] at this
      exact absurd this (Finset.notMem_empty q)
    rw [← (SameLogs.refl c).upToDate (t := 0) q t] at hup
    exact RaftNode.granting_of_lt hlt hup
  have := h.majority
  omega

/-- The terms of a candidate and of those who are asked leave room for so many elections. -/
def Room (c : RaftCluster) (candidate : U64) (k : ℕ) : Prop :=
  ∀ q, q = candidate ∨ q ∈ c.asked candidate c.ids → (c.nodes q).currentTerm.val + k < 2 ^ 64

/-- How a cluster is left by a candidate that has won. -/
structure Won (c c' : RaftCluster) (candidate : U64) : Prop where
  same : SameLogs c c'
  role : (c'.nodes candidate).role = .leader
  terms : ∀ q ∈ c.asked candidate c.ids, (c'.nodes q).currentTerm = (c'.nodes candidate).currentTerm

/-- **One attempt**: the candidate wins, or fewer peers are ahead of it. -/
theorem Electable.elect_once {k : ℕ} (h : Electable c candidate) (hroom : Room c candidate (k + 1)) :
    ∃ c', ((RaftCluster.elect candidate).run c = (.ok true, c') ∧ Won c c' candidate) ∨
      ((RaftCluster.elect candidate).run c = (.ok false, c') ∧ SameLogs c c' ∧
        (c'.ahead candidate).card < (c.ahead candidate).card ∧ Room c' candidate k) := by
  have hself := hroom candidate (Or.inl rfl)
  obtain ⟨t, htval⟩ : ∃ t : U64, t.val = (c.nodes candidate).currentTerm.val + 1 := ⟨⟨_, by omega⟩, rfl⟩
  have ht : (c.nodes candidate).currentTerm < t := Fin.lt_def.2 (by omega)
  obtain ⟨c', hrun⟩ := elect_run h.nodup h.mem h.running (h.persistable candidate h.mem)
    (fun q hq => h.persistable q (mem_asked.1 hq).1) (U64.checkedAdd_eq_some.2 htval)
  refine ⟨c', ?_⟩
  rcases hrun with ⟨hrun, hout⟩ | ⟨hrun, hpolled⟩
  · refine Or.inr ⟨hrun, hout.same, hout.ahead_lt ht, fun q hq => ?_⟩
    obtain ⟨p, hp, -, heq⟩ := hout.ahead
    have hpterm := hroom p (Or.inr hp)
    rw [hout.same.asked] at hq
    rcases hq with rfl | hq
    · rw [heq]
      omega
    · rcases hout.terms q (asked_ne hq) with hsame | hsame
      · have := hroom q (Or.inr hq)
        rw [hsame]
        omega
      · rw [hsame]
        omega
  · by_cases hmaj : c.ids.length < 2 * (1 + (c.backers candidate (c.ballot candidate t) c.ids).length)
    · rw [decide_eq_true hmaj] at hrun hpolled
      exact Or.inl ⟨hrun, hpolled.same, hpolled.role rfl, fun q hq =>
        (hpolled.behind q hq).2.trans hpolled.self.symm⟩
    · rw [decide_eq_false hmaj] at hrun hpolled
      refine Or.inr ⟨hrun, hpolled.same, ?_, fun q hq => ?_⟩
      · rw [hpolled.ahead_eq, Finset.card_empty, Finset.card_pos, Finset.nonempty_iff_ne_empty]
        exact fun hahead => hmaj (h.wins hahead ht)
      · rw [hpolled.same.asked] at hq
        have hterm : (c'.nodes q).currentTerm = t := by
          rcases hq with rfl | hq
          · exact hpolled.self
          · exact (hpolled.behind q hq).2
        rw [hterm]
        omega

/-- **A candidate that a majority supports wins** after it has lost as many elections as peers are
    ahead of it, or fewer. -/
theorem Electable.elect_again (k : ℕ) : ∀ {c : RaftCluster}, Electable c candidate →
    (c.ahead candidate).card ≤ k → Room c candidate (k + 1) →
    ∃ lost ≤ k, ∃ c', Act.calls (List.replicate (lost + 1) (RaftCluster.elect candidate)) c =
      (List.replicate lost (.ok false) ++ [.ok true], c') ∧ Won c c' candidate := by
  induction k with
  | zero =>
    intro c h hcard hroom
    obtain ⟨c', ⟨hrun, hwon⟩ | ⟨-, -, hlt, -⟩⟩ := h.elect_once hroom
    · refine ⟨0, le_rfl, c', ?_, hwon⟩
      rw [List.replicate_succ, List.replicate_zero, Act.calls, hrun]
      rfl
    · omega
  | succ k ih =>
    intro c h hcard hroom
    obtain ⟨c', ⟨hrun, hwon⟩ | ⟨hrun, hsame, hlt, hroom'⟩⟩ := h.elect_once hroom
    · refine ⟨0, Nat.zero_le _, c', ?_, hwon⟩
      rw [List.replicate_succ, List.replicate_zero, Act.calls, hrun]
      rfl
    · obtain ⟨lost, hlost, c'', hcalls, hwon⟩ := ih (h.of_sameLogs hsame) (by omega) hroom'
      refine ⟨lost + 1, by omega, c'', ?_, hsame.trans hwon.same, hwon.role, fun q hq => ?_⟩
      · rw [List.replicate_succ, Act.calls, hrun, hcalls, List.replicate_succ]
        rfl
      · exact hwon.terms q (by rw [hsame.asked]; exact hq)

theorem passedOver_of_linked {q : U64} (hne : q ≠ candidate) (hrun : q ∉ c.stopped)
    (hto : c.reachable candidate q = true) (hback : c.reachable q candidate = true) :
    c.passedOver candidate q = false := by
  simp [passedOver, hne, hrun, hto, hback]

/-- **The best log of a connected majority** makes its node electable. -/
theorem exists_electable {S : Finset U64} (hnodup : c.ids.Nodup) (hS : S ⊆ c.ids.toFinset)
    (hcard : c.ids.length < 2 * S.card) (hrun : ∀ q ∈ S, q ∉ c.stopped)
    (hlink : ∀ p ∈ S, ∀ q ∈ S, c.reachable p q = true) (hps : ∀ q ∈ c.ids, Persistable (c.nodes q).log) :
    ∃ candidate ∈ S, Electable c candidate := by
  obtain ⟨candidate, hmem, hbest⟩ := Finset.exists_max_image S
    (fun q => toLex ((c.nodes q).lastLogTerm, (c.nodes q).lastLogIndex)) (Finset.card_pos.1 (by omega))
  have hsub : S.erase candidate ⊆ (c.supporters candidate).toFinset := by
    intro q hq
    obtain ⟨hne, hq⟩ := Finset.mem_erase.1 hq
    have hask : q ∈ c.asked candidate c.ids := mem_asked.2 ⟨List.mem_toFinset.1 (hS hq),
      passedOver_of_linked hne (hrun q hq) (hlink candidate hmem q hq) (hlink q hq candidate hmem)⟩
    rw [List.mem_toFinset, supporters, List.mem_filter]
    refine ⟨hask, ?_⟩
    rcases Prod.Lex.toLex_le_toLex.1 (hbest q hq) with hlt | ⟨heq, hle⟩
    · rw [RaftNode.upToDate, ballot, decide_eq_true hlt]
      rfl
    · rw [RaftNode.upToDate, ballot, decide_eq_true heq, decide_eq_true hle]
      exact Bool.or_true _
  have hlen := (Finset.card_le_card hsub).trans (List.toFinset_card_le _)
  rw [Finset.card_erase_of_mem hmem] at hlen
  exact ⟨candidate, hmem, hnodup, List.mem_toFinset.1 (hS hmem), hrun candidate hmem, hps, by omega⟩

/-- As many peers can be ahead as there are others. -/
theorem card_ahead_lt (hnodup : c.ids.Nodup) (hmem : candidate ∈ c.ids) :
    (c.ahead candidate).card < c.ids.length := by
  have hsub : c.ahead candidate ⊆ c.ids.toFinset.erase candidate := by
    intro q hq
    obtain ⟨hask, -⟩ := mem_ahead.1 hq
    exact Finset.mem_erase.2 ⟨asked_ne hask, List.mem_toFinset.2 (mem_asked.1 hask).1⟩
  have hlen := Finset.card_le_card hsub
  rw [Finset.card_erase_of_mem (List.mem_toFinset.2 hmem), List.toFinset_card_of_nodup hnodup] at hlen
  have := List.length_pos_of_mem hmem
  omega

/-- **A candidate that has won** can serve if the others that it reaches were asked. -/
theorem Won.serves {S : Finset U64} {command : Bytes} (h : Won c c' candidate) (hsymm : Symmetric c)
    (hmem : candidate ∈ S) (hS : S ⊆ c.ids.toFinset) (hcard : c.ids.length < 2 * S.card)
    (hrun : ∀ q ∈ S, q ∉ c.stopped) (hlink : ∀ p ∈ S, ∀ q ∈ S, c.reachable p q = true)
    (hp : Persistable ((c'.nodes candidate).log ++ [⟨(c'.nodes candidate).currentTerm, command⟩])) :
    Serves c' candidate command ∧ ∀ q ∈ S, q ≠ candidate → q ∈ c'.reached candidate := by
  have hnet := h.same.net
  have hreached : ∀ q ∈ S, q ≠ candidate → q ∈ c'.reached candidate := by
    intro q hq hne
    refine mem_reached.2 ⟨hnet.1 ▸ List.mem_toFinset.1 (hS hq), hne, ?_⟩
    rw [hnet.cutOff]
    simp [cutOff, hrun q hq, hlink candidate hmem q hq]
  refine ⟨⟨hnet.1 ▸ List.mem_toFinset.1 (hS hmem), hnet.2.1 ▸ hrun candidate hmem, h.role, hp, fun q hq => ?_, ?_⟩,
    hreached⟩
  · obtain ⟨hids, hne, hcut⟩ := mem_reached.1 hq
    rw [hnet.cutOff] at hcut
    exact (h.terms q (mem_asked.2 ⟨hnet.1 ▸ hids, hsymm.passedOver hne hcut⟩)).le
  · have hsub : S.erase candidate ⊆ (c'.reached candidate).toFinset := by
      intro q hq
      obtain ⟨hne, hq⟩ := Finset.mem_erase.1 hq
      exact List.mem_toFinset.2 (hreached q hq hne)
    have hlen := (Finset.card_le_card hsub).trans (List.toFinset_card_le _)
    rw [Finset.card_erase_of_mem hmem] at hlen
    rw [hnet.1]
    omega

section Available
variable {ids : List U64} {seed : U64} {c₀ : RaftCluster} {steps : List (RaftCluster × Event)} {S : Finset U64}

/-- **A connected majority is available**: one of its nodes wins after fewer lost elections than there
    are nodes, and then gets every command that it can write applied by the whole majority. -/
theorem majority_available (hopen : openCluster ids (fun _ => none) seed = .ok c₀)
    (htrace : Trace Step c₀ steps c) (hS : S ⊆ c.ids.toFinset) (hcard : c.ids.length < 2 * S.card)
    (hrun : ∀ q ∈ S, q ∉ c.stopped) (hlink : ∀ p ∈ S, ∀ q ∈ S, c.reachable p q = true)
    (hps : ∀ q ∈ c.ids, Persistable (c.nodes q).log)
    (hterms : ∀ q ∈ c.ids, (c.nodes q).currentTerm.val + c.ids.length < 2 ^ 64) :
    ∃ candidate ∈ S, ∃ lost < c.ids.length, ∃ c',
      Act.calls (List.replicate (lost + 1) (RaftCluster.elect candidate)) c =
        (List.replicate lost (.ok false) ++ [.ok true], c') ∧
      ∀ command, Persistable ((c'.nodes candidate).log ++ [⟨(c'.nodes candidate).currentTerm, command⟩]) →
        ∃ c'', (RaftCluster.replicate candidate command).run c' =
            (.ok ((c.nodes candidate).log.length + 1), c'') ∧
          ∀ q ∈ S, c''.applied q = (c.nodes candidate).log.map Entry.command ++ [command] := by
  obtain ⟨g, hgood, -⟩ := (good_open hopen).trace htrace
  obtain ⟨candidate, hmem, helect⟩ := exists_electable hgood.nodup hS hcard hrun hlink hps
  have hahead := card_ahead_lt hgood.nodup helect.mem
  obtain ⟨lost, hlost, c', hcalls, hwon⟩ := helect.elect_again (c.ids.length - 1) (by omega) fun q hq => by
    rw [Nat.sub_add_cancel (by omega)]
    refine hterms q ?_
    rcases hq with rfl | hq
    · exact helect.mem
    · exact (mem_asked.1 hq).1
  refine ⟨candidate, hmem, lost, by omega, c', hcalls, fun command hp => ?_⟩
  obtain ⟨g', hgood'⟩ : ∃ g', Good c' g' := by
    have hkeep : ∃ g', Good (Act.calls (List.replicate (lost + 1) (RaftCluster.elect candidate)) c).2 g' :=
      Act.calls_preserves (I := fun c => ∃ g, Good c g) (fun x hx s hs => by
        obtain ⟨g, hg⟩ := hs
        rw [List.eq_of_mem_replicate hx]
        obtain ⟨g', hev⟩ := hg.elect rfl
        exact ⟨g', hev.good⟩) c ⟨g, hgood⟩
    rw [hcalls] at hkeep
    exact hkeep
  obtain ⟨hserves, hreached⟩ := hwon.serves ((symmetric_of_open hopen).trace htrace) hmem hS hcard hrun hlink hp
  obtain ⟨index, c'', hrep⟩ := hgood'.replicate_serves hserves fun q hq => by
    rw [hwon.same.log]
    exact hps q (hwon.same.net.1 ▸ (mem_reached.1 hq).1)
  obtain ⟨-, hindex, happlied⟩ := hgood'.replicate_ok hrep
  rw [hwon.same.log] at hindex happlied
  subst hindex
  refine ⟨c'', hrep, fun q hq => (happlied q ?_).2.2⟩
  by_cases hne : q = candidate
  · exact Or.inl hne
  · exact Or.inr (hreached q hq hne)

/-- Three nodes, of which the first one has stopped after it has led and replicated a command. -/
def leaderStopped : RaftCluster := firstReplicated.after (.stop 1)

theorem trace_leaderStopped : ∃ steps, Trace Step threeNodes steps leaderStopped :=
  ⟨_, (((Trace.refl threeNodes).step step_firstElected).step step_firstReplicated).step
    (step_after (.stop 1) trivial (r := .ok .unit) rfl)⟩

theorem majority_available_stopped : ∃ candidate ∈ ({2, 3} : Finset U64), ∃ lost < 3, ∃ c',
    Act.calls (List.replicate (lost + 1) (RaftCluster.elect candidate)) leaderStopped =
      (List.replicate lost (.ok false) ++ [.ok true], c') := by
  have hids : leaderStopped.ids = [1, 2, 3] := by decide +kernel
  have hstopped : leaderStopped.stopped = [1] := by decide +kernel
  have hblocked : leaderStopped.blocked = [] := by decide +kernel
  have hnodes : ∀ q ∈ leaderStopped.ids, (leaderStopped.nodes q).log = [⟨1, [7]⟩] ∧
      (leaderStopped.nodes q).currentTerm = 1 := by
    intro q hq
    rw [hids] at hq
    simp only [List.mem_cons, List.not_mem_nil, or_false] at hq
    rcases hq with rfl | rfl | rfl
    · decide +kernel
    · decide +kernel
    · decide +kernel
  obtain ⟨steps, htrace⟩ := trace_leaderStopped
  obtain ⟨candidate, hmem, lost, hlost, c', hcalls, -⟩ := majority_available (S := {2, 3}) open_threeNodes htrace
    (by rw [hids]; simp) (by rw [hids]; simp)
    (fun q hq => by
      rw [hstopped]
      simp only [Finset.mem_insert, Finset.mem_singleton] at hq
      rcases hq with rfl | rfl
      · decide
      · decide)
    (fun p _ q _ => by rw [reachable, hblocked]; simp)
    (fun q hq => by rw [(hnodes q hq).1]; exact persistable_single)
    (fun q hq => by rw [(hnodes q hq).2, hids]; norm_num)
  rw [hids] at hlost
  exact ⟨candidate, hmem, lost, hlost, c', hcalls⟩

end Available

end Again

end RaftCluster

end Raft

end NutDb
