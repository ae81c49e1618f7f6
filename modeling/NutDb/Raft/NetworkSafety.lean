/-
  Safety of Raft nodes on a network.

  `view` is what the protocol sees of the nodes and messages.  Each step of the
  network is one of the rules of the protocol there, and committed entries are
  chosen.
-/
import NutDb.Raft.Network

namespace NutDb

open Lib Lib.Raft

namespace Raft

namespace RaftNode

/-- A vote is cast in the term of the request, and only by a node that has not voted in it. -/
theorem castVote_stepDown {n : RaftNode} {request : RequestVote} (hle : n.currentTerm ≤ request.term) :
    ∃ vote role leaderId, (n.stepDown request.term).castVote request = { n with
      currentTerm := request.term, votedFor := vote, role := role, leaderId := leaderId } ∧
      ((n.stepDown request.term).grants request = true →
        vote = some request.candidateId ∧ n.upToDate request = true) ∧
      ((n.currentTerm < request.term ∧ role = .follower) ∨
        (n.currentTerm = request.term ∧ role = n.role ∧ (n.votedFor = none ∨ vote = n.votedFor))) := by
  obtain ⟨before, role, leaderId, hdown, hcase⟩ := stepDown_eq hle
  obtain ⟨vote, hcast, hgrant, hnew⟩ := castVote_eq (n.stepDown request.term) request
  have hvote : before = none ∨ vote = before := by
    rcases hnew with ⟨-, hnone, -⟩ | ⟨-, hsame⟩
    · rw [hdown] at hnone
      exact Or.inl hnone
    · rw [hdown] at hsame
      exact Or.inr hsame
  refine ⟨vote, role, leaderId, by rw [hcast, hdown], fun hgrants => ?_, ?_⟩
  · obtain ⟨hv, hup⟩ := hgrant hgrants
    rw [hdown] at hup
    exact ⟨hv, hup⟩
  · rcases hcase with ⟨hlt, -, rfl⟩ | ⟨heq, rfl, rfl, -⟩
    · exact Or.inl ⟨hlt, rfl⟩
    · exact Or.inr ⟨heq, rfl, hvote⟩

end RaftNode

namespace Network

/-! ## What the protocol sees -/

/-- The mode of a node. -/
def mode : Role → Mode
  | .follower => .follows
  | .candidate => .stands
  | .leader => .leads

/-- A node as a server. -/
def server (n : RaftNode) : Server U64 U64 Entry :=
  ⟨n.currentTerm, n.votedFor, n.log, mode n.role, n.commitIndex⟩

def ask (request : RequestVote) : Ask U64 U64 :=
  ⟨request.term, request.candidateId, request.lastLogIndex, request.lastLogTerm⟩

def append (request : AppendEntries) : Send U64 U64 Entry :=
  ⟨request.term, request.leaderId, request.prevLogIndex, request.prevLogTerm, request.entries,
    request.leaderCommit⟩

/-- The votes that were granted, and those of the candidates for themselves. -/
def Cast (net : Network) (v t c : U64) : Prop :=
  (∃ response, (v, c, response) ∈ net.votes ∧ response.granted = true ∧ response.term = t) ∨
    (v = c ∧ ∃ request ∈ net.voteRequests, request.term = t ∧ request.candidateId = c)

/-- The network, as the protocol sees it. -/
def view (net : Network) : Net U64 U64 Entry where
  server := fun id => server (net.nodes id)
  asks := {a | ∃ request ∈ net.voteRequests, a = ask request}
  casts := {x | net.Cast x.1 x.2.1 x.2.2}
  sends := {x | ∃ request, (x.1, request) ∈ net.appendRequests ∧ x.2 = append request}
  acks := {x | ∃ response, (x.1, response) ∈ net.appendResponses ∧ response.success = true ∧
    response.term = x.2.1 ∧ response.matchIndex = x.2.2}

section View
variable {net : Network} {id : U64} {n : RaftNode}

theorem view_setNode (net : Network) (id : U64) (n : RaftNode) :
    (net.setNode id n).view = net.view.set id (server n) := by
  have hserver : (fun q => server (Function.update net.nodes id n q)) =
      Function.update (fun q => server (net.nodes q)) id (server n) := by
    funext q
    by_cases hq : q = id
    · rw [hq, Function.update_self, Function.update_self]
    · rw [Function.update_of_ne hq, Function.update_of_ne hq]
  exact congrArg (fun f => { net.view with server := f }) hserver

/-- A candidate has asked for votes. -/
theorem view_voteRequest (net : Network) (request : RequestVote) :
    (net.addVoteRequest (some request)).view =
      { net.view with
        asks := insert (ask request) net.view.asks
        casts := insert (request.candidateId, request.term, request.candidateId) net.view.casts } := by
  unfold view
  congr 1
  · ext a
    simp [addVoteRequest]
  · ext ⟨v, t, c⟩
    simp only [Cast, addVoteRequest, Option.toList_some,
      List.cons_append, List.nil_append, List.mem_cons, Set.mem_ofPred_eq, Set.mem_insert_iff, Prod.mk.injEq]
    constructor
    · rintro (hv | ⟨rfl, r, rfl | hr, rfl, rfl⟩)
      · exact Or.inr (Or.inl hv)
      · exact Or.inl ⟨rfl, rfl, rfl⟩
      · exact Or.inr (Or.inr ⟨rfl, r, hr, rfl, rfl⟩)
    · rintro (⟨rfl, rfl, rfl⟩ | hv | ⟨rfl, r, hr, h1, h2⟩)
      · exact Or.inr ⟨rfl, request, Or.inl rfl, rfl, rfl⟩
      · exact Or.inl hv
      · exact Or.inr ⟨rfl, r, Or.inr hr, h1, h2⟩

/-- A vote response. -/
theorem view_vote (net : Network) (v c : U64) (response : VoteResponse) :
    (net.addVote v c (some response)).view =
      if response.granted = true then { net.view with casts := insert (v, response.term, c) net.view.casts }
      else net.view := by
  by_cases hg : response.granted = true
  · rw [if_pos hg]
    unfold view
    congr 1
    ext ⟨v', t, c'⟩
    simp only [Cast, addVote, Option.toList_some, List.map_cons, List.map_nil,
      List.cons_append, List.nil_append, List.mem_cons, Set.mem_ofPred_eq, Set.mem_insert_iff, Prod.mk.injEq]
    constructor
    · rintro (⟨r, ⟨rfl, rfl, rfl⟩ | hr, h1, rfl⟩ | hv)
      · exact Or.inl ⟨rfl, rfl, rfl⟩
      · exact Or.inr (Or.inl ⟨r, hr, h1, rfl⟩)
      · exact Or.inr (Or.inr hv)
    · rintro (⟨rfl, rfl, rfl⟩ | ⟨r, hr, h1, h2⟩ | hv)
      · exact Or.inl ⟨response, Or.inl ⟨rfl, rfl, rfl⟩, hg, rfl⟩
      · exact Or.inl ⟨r, Or.inr hr, h1, h2⟩
      · exact Or.inr hv
  · rw [if_neg hg]
    unfold view
    congr 1
    ext ⟨v', t, c'⟩
    simp only [Cast, addVote, Option.toList_some, List.map_cons, List.map_nil,
      List.cons_append, List.nil_append, List.mem_cons, Set.mem_ofPred_eq]
    constructor
    · rintro (⟨r, ⟨-, -, rfl⟩ | hr, h1, h2⟩ | hv)
      · exact absurd h1 hg
      · exact Or.inl ⟨r, hr, h1, h2⟩
      · exact Or.inr hv
    · rintro (⟨r, hr, h1, h2⟩ | hv)
      · exact Or.inl ⟨r, Or.inr hr, h1, h2⟩
      · exact Or.inr hv

theorem view_appendRequest (net : Network) (follower : U64) (request : AppendEntries) :
    (net.addAppendRequest follower request).view =
      { net.view with sends := insert (follower, append request) net.view.sends } := by
  unfold view
  congr 1
  ext ⟨q, x⟩
  simp only [addAppendRequest, List.mem_cons, Set.mem_ofPred_eq, Set.mem_insert_iff, Prod.mk.injEq]
  constructor
  · rintro ⟨r, ⟨rfl, rfl⟩ | hr, rfl⟩
    · exact Or.inl ⟨rfl, rfl⟩
    · exact Or.inr ⟨r, hr, rfl⟩
  · rintro (⟨rfl, rfl⟩ | ⟨r, hr, rfl⟩)
    · exact ⟨request, Or.inl ⟨rfl, rfl⟩, rfl⟩
    · exact ⟨r, Or.inr hr, rfl⟩

theorem view_appendResponse (net : Network) (q : U64) (response : AppendResponse) :
    (net.addAppendResponse q (some response)).view =
      if response.success = true then
        { net.view with acks := insert (q, response.term, response.matchIndex) net.view.acks }
      else net.view := by
  by_cases hs : response.success = true
  · rw [if_pos hs]
    unfold view
    congr 1
    ext ⟨q', t, m⟩
    simp only [addAppendResponse, Option.toList_some, List.map_cons, List.map_nil,
      List.cons_append, List.nil_append, List.mem_cons, Set.mem_ofPred_eq, Set.mem_insert_iff, Prod.mk.injEq]
    constructor
    · rintro ⟨r, ⟨rfl, rfl⟩ | hr, h1, rfl, rfl⟩
      · exact Or.inl ⟨rfl, rfl, rfl⟩
      · exact Or.inr ⟨r, hr, h1, rfl, rfl⟩
    · rintro (⟨rfl, rfl, rfl⟩ | ⟨r, hr, h1, h2, h3⟩)
      · exact ⟨response, Or.inl ⟨rfl, rfl⟩, hs, rfl, rfl⟩
      · exact ⟨r, Or.inr hr, h1, h2, h3⟩
  · rw [if_neg hs]
    unfold view
    congr 1
    ext ⟨q', t, m⟩
    simp only [addAppendResponse, Option.toList_some, List.map_cons, List.map_nil,
      List.cons_append, List.nil_append, List.mem_cons, Set.mem_ofPred_eq, Prod.mk.injEq]
    constructor
    · rintro ⟨r, ⟨-, rfl⟩ | hr, h1, h2⟩
      · exact absurd h1 hs
      · exact ⟨r, hr, h1, h2⟩
    · rintro ⟨r, hr, h1, h2⟩
      exact ⟨r, Or.inr hr, h1, h2⟩

end View

/-! ## Steps -/

/-- What is known of a node by itself. -/
structure NodeSound (id : U64) (n : RaftNode) : Prop where
  id_eq : n.id = id
  wal : ∃ s, Stores n.wal s
  applied : n.lastApplied ≤ n.commitIndex

/-- The invariant of the network. -/
structure Sound (ids : List U64) (net : Network) (g : Ghost U64 U64 Entry) (base : U64 → ℕ) : Prop where
  inv : NetInv Entry.term 0 ids.toFinset net.view g base
  node : ∀ id ∈ ids, NodeSound id (net.nodes id)

/-- The network and its history go on. -/
def Proceeds (ids : List U64) (net net' : Network) (g : Ghost U64 U64 Entry) (base : U64 → ℕ) : Prop :=
  ∃ g' base', Sound ids net' g' base' ∧ Grown net.view net'.view g g' base base'

section Steps
variable {ids : List U64} {net net' : Network} {g : Ghost U64 U64 Entry} {base : U64 → ℕ} {id : U64}
  {n : RaftNode}

theorem zero_le (t : U64) : (0 : U64) ≤ t := Fin.zero_le t

theorem Sound.nodes_update (h : Sound ids net g base) (hn : NodeSound id n) :
    ∀ q ∈ ids, NodeSound q (Function.update net.nodes id n q) := by
  intro q hq
  by_cases hqi : q = id
  · rw [hqi, Function.update_self]
    exact hn
  · rw [Function.update_of_ne hqi]
    exact h.node q hq

/-- A step of one node that sends nothing. -/
theorem Sound.move (h : Sound ids net g base) (hid : id ∈ ids)
    (hm : Moves Entry.term ids.toFinset net.view g base id (server n)) (hn : NodeSound id n) :
    Sound ids (net.setNode id n) g base := by
  refine ⟨?_, h.nodes_update hn⟩
  rw [view_setNode]
  exact h.inv.update (List.mem_toFinset.2 hid) hm

theorem setNode_self (net : Network) (id : U64) : net.setNode id (net.nodes id) = net := by
  rw [setNode, Function.update_eq_self]

/-- The votes that a candidate has counted are those of a majority. -/
theorem supporters_majority (hnodup : ids.Nodup)
    (hreq : ∃ request ∈ net.voteRequests, request.term = (net.nodes id).currentTerm ∧ request.candidateId = id)
    (hvotes : (net.supporters ids id).length * 2 > ids.length) :
    Majority ids.toFinset fun v => (v, (net.view.server id).term, id) ∈ net.view.casts := by
  refine majority_of_filter hnodup hvotes ?_
  intro q hq hp
  simp only [Bool.or_eq_true, decide_eq_true_eq, List.any_eq_true, Bool.and_eq_true] at hp
  rcases hp with rfl | ⟨⟨v, c, response⟩, hmem, ⟨⟨rfl, rfl⟩, hg⟩, ht⟩
  · exact Or.inr ⟨rfl, hreq⟩
  · exact Or.inl ⟨response, hmem, hg, ht⟩

/-- The term that a leader sends is that of the entry before. -/
theorem prevLogTerm_entry {log : List Entry} {prev : ℕ} {prevTerm : U64} (hprev : prev ≤ log.length)
    (hterm : RaftCluster.prevLogTerm log prev = .ok prevTerm) (hpos : 0 < prev) :
    ∃ e, log[prev - 1]? = some e ∧ e.term = prevTerm := by
  have hget := List.getElem?_eq_getElem (l := log) (i := prev - 1) (by omega)
  rw [RaftCluster.prevLogTerm, if_neg (by omega), Res.get_of_getElem? hget] at hterm
  cases hterm
  exact ⟨_, hget, rfl⟩

theorem grown_same {net net' : Net U64 U64 Entry} (h : net.acks ⊆ net'.acks) : Grown net net' g g base base :=
  ⟨.refl g, fun _ _ => rfl, h⟩

/-- A node asks for votes, after it has voted for itself. -/
theorem Sound.asked (h : Sound ids net g base) {request : RequestVote} (hid : request.candidateId ∈ ids)
    (hterm : request.term = (net.nodes request.candidateId).currentTerm)
    (hvote : (net.nodes request.candidateId).votedFor = some request.candidateId)
    (hindex : request.lastLogIndex = (net.nodes request.candidateId).lastLogIndex)
    (hlast : request.lastLogTerm = (net.nodes request.candidateId).lastLogTerm) :
    Sound ids (net.addVoteRequest (some request)) g base := by
  refine ⟨?_, h.node⟩
  have hmem : request.candidateId ∈ ids.toFinset := List.mem_toFinset.2 hid
  have hasked := h.inv.asked (a := ask request) hmem hterm hindex hlast
  rw [view_voteRequest]
  exact hasked.voted (a := ask request) hmem (Or.inl rfl) hterm.symm hvote (Or.inr ⟨hlast.symm, hindex.ge⟩)

theorem startElection_step {r : Res RequestVote} (h : Sound ids net g base) (hid : id ∈ ids)
    (hrun : RaftNode.startElection.run (net.nodes id) = (r, n)) :
    Proceeds ids net ((net.setNode id n).addVoteRequest r.toOption) g base := by
  have hnode := h.node id hid
  obtain ⟨s, hs⟩ := hnode.wal
  obtain ⟨rfl, e, rfl⟩ | ⟨term, w, hlt, hn, hkept, hr⟩ := RaftNode.startElection_spec hs hrun
  · rw [setNode_self]
    exact ⟨g, base, h, grown_same subset_rfl⟩
  · have hmoved : Sound ids (net.setNode id n) g base := by
      refine h.move hid (h.inv.moves (List.mem_toFinset.2 hid) (by rw [hn]; rfl) (by rw [hn]; rfl) (Or.inl ?_)) ?_
      · rw [hn]
        exact ⟨hlt, by simp [server, mode]⟩
      · exact ⟨by rw [hn]; exact hnode.id_eq, hkept.stores hs, by rw [hn]; exact hnode.applied⟩
    rcases r with e | request
    · exact ⟨g, base, hmoved, grown_same subset_rfl⟩
    · obtain ⟨hreq, -⟩ := hr request rfl
      have hcand : request.candidateId = id := by rw [hreq]; exact hnode.id_eq
      have hself : (net.setNode id n).nodes request.candidateId = n := by
        rw [hcand]
        exact Function.update_self _ _ _
      refine ⟨g, base, hmoved.asked (by rw [hcand]; exact hid) ?_ ?_ ?_ ?_, grown_same subset_rfl⟩
      · rw [hself, hreq, hn]
      · rw [hself, hreq, hn]
      · rw [hself, hreq, hn]
        rfl
      · rw [hself, hreq, hn]
        rfl

/-- A node grants its vote. -/
theorem Sound.voted (h : Sound ids net g base) {request : RequestVote} {response : VoteResponse} (hid : id ∈ ids)
    (hmem : request ∈ net.voteRequests) (hgranted : response.granted = true → response.term = request.term ∧
      (net.nodes id).currentTerm = request.term ∧ (net.nodes id).votedFor = some request.candidateId ∧
      (net.nodes id).upToDate request = true) :
    Sound ids (net.addVote id request.candidateId (some response)) g base := by
  refine ⟨?_, h.node⟩
  rw [view_vote]
  split_ifs with hg
  · obtain ⟨hterm, h1, h2, h3⟩ := hgranted hg
    have hbehind : Behind Entry.term 0 (net.nodes id).log request.lastLogTerm request.lastLogIndex := by
      simp only [RaftNode.upToDate, Bool.or_eq_true, Bool.and_eq_true, decide_eq_true_eq] at h3
      exact h3
    rw [hterm]
    exact h.inv.voted (a := ask request) (List.mem_toFinset.2 hid) ⟨request, hmem, rfl⟩ h1 h2 hbehind
  · exact h.inv

theorem requestVote_step {request : RequestVote} {r : Res VoteResponse} (h : Sound ids net g base)
    (hid : id ∈ ids) (hmem : request ∈ net.voteRequests)
    (hrun : (RaftNode.requestVote request).run (net.nodes id) = (r, n)) :
    Proceeds ids net ((net.setNode id n).addVote id request.candidateId r.toOption) g base := by
  have hnode := h.node id hid
  obtain ⟨s, hs⟩ := hnode.wal
  have hstep : Sound ids (net.setNode id n) g base ∧ ∀ response, r = .ok response →
      response.granted = true → response.term = request.term ∧ n.currentTerm = request.term ∧
        n.votedFor = some request.candidateId ∧ n.upToDate request = true := by
    rcases @RaftNode.requestVoteOr_spec (net.nodes id) n none request r hrun with
      ⟨rfl, -, rfl⟩ | ⟨hle, hsaved, ⟨w, hn⟩, hr⟩
    · refine ⟨by rw [setNode_self]; exact h, fun response hr hg => ?_⟩
      cases hr
      cases hg
    · obtain ⟨vote, role, leaderId, hcast, hgrant, hcase⟩ := RaftNode.castVote_stepDown hle
      rw [hcast] at hn
      refine ⟨h.move hid (h.inv.moves (List.mem_toFinset.2 hid) ?_ ?_ ?_) ?_, fun response hok hg => ?_⟩
      · rw [hn]
        rfl
      · rw [hn]
        rfl
      · rcases hcase with ⟨hlt, rfl⟩ | ⟨heq, rfl, hvote⟩
        · exact Or.inl ⟨by rw [hn]; exact hlt, by rw [hn]; simp [server, mode]⟩
        · exact Or.inr ⟨by rw [hn]; exact heq.symm, Or.inl (by rw [hn]; rfl), by rw [hn]; exact hvote⟩
      · exact ⟨by rw [hn]; exact hnode.id_eq, hsaved.exists_stores hs, by rw [hn]; exact hnode.applied⟩
      · have hresponse := hr response hok
        rw [hresponse] at hg ⊢
        obtain ⟨hv, hup⟩ := hgrant hg
        rw [hn]
        exact ⟨rfl, rfl, hv, hup⟩
  obtain ⟨hmoved, hgranted⟩ := hstep
  rcases r with e | response
  · exact ⟨g, base, hmoved, grown_same subset_rfl⟩
  · have hself : (net.setNode id n).nodes id = n := Function.update_self _ _ _
    refine ⟨g, base, hmoved.voted hid hmem ?_, grown_same subset_rfl⟩
    rw [hself]
    exact hgranted response rfl

theorem observeTerm_step {term : U64} {r : Res Unit} (h : Sound ids net g base) (hid : id ∈ ids)
    (hrun : (RaftNode.observeTerm term).run (net.nodes id) = (r, n)) :
    Proceeds ids net (net.setNode id n) g base := by
  have hnode := h.node id hid
  obtain ⟨s, hs⟩ := hnode.wal
  refine ⟨g, base, ?_, grown_same subset_rfl⟩
  rcases RaftNode.observeTerm_spec hs hrun with rfl | ⟨w, hlt, hn, hkept⟩
  · rw [setNode_self]
    exact h
  · refine h.move hid (h.inv.moves (List.mem_toFinset.2 hid) (by rw [hn]; rfl) (by rw [hn]; rfl) (Or.inl ?_)) ?_
    · rw [hn]
      exact ⟨hlt, by simp [server, mode]⟩
    · exact ⟨by rw [hn]; exact hnode.id_eq, hkept.stores hs, by rw [hn]; exact hnode.applied⟩

theorem becomeLeader_step (hnodup : ids.Nodup) (h : Sound ids net g base) (hid : id ∈ ids)
    (hrole : (net.nodes id).role = .candidate)
    (hreq : ∃ request ∈ net.voteRequests, request.term = (net.nodes id).currentTerm ∧ request.candidateId = id)
    (hvotes : (net.supporters ids id).length * 2 > ids.length) :
    Proceeds ids net (net.setNode id (net.nodes id).becomeLeader) g base := by
  have hnode := h.node id hid
  obtain ⟨hnone, hinv⟩ := h.inv.won (List.mem_toFinset.2 hid)
    (show mode (net.nodes id).role = .stands by rw [hrole]; rfl) (supporters_majority hnodup hreq hvotes)
  rw [show ({ net.view.server id with mode := .leads } : Server U64 U64 Entry) =
    server (net.nodes id).becomeLeader from rfl, ← view_setNode] at hinv
  refine ⟨_, _, ⟨hinv, h.nodes_update ⟨hnode.id_eq, hnode.wal, hnode.applied⟩⟩, ?_⟩
  rw [view_setNode]
  exact elect_grown (s := { net.view.server id with mode := .leads }) hnone id

theorem appendAsLeader_step {command : Bytes} {r : Res ℕ} (h : Sound ids net g base) (hid : id ∈ ids)
    (hrun : (RaftNode.appendAsLeader command).run (net.nodes id) = (r, n)) :
    Proceeds ids net (net.setNode id n) g base := by
  have hnode := h.node id hid
  obtain ⟨s, hs⟩ := hnode.wal
  rcases RaftNode.appendAsLeader_spec hs hrun with ⟨rfl, -⟩ | ⟨hrole, w, hn, hkept, -⟩
  · rw [setNode_self]
    exact ⟨g, base, h, grown_same subset_rfl⟩
  · have hleads : (net.view.server id).mode = .leads := by
      show mode (net.nodes id).role = .leads
      rw [hrole]
      rfl
    have hinv := h.inv.led (e := ⟨(net.nodes id).currentTerm, command⟩) (List.mem_toFinset.2 hid) hleads rfl
    have hserver : server n = { net.view.server id with
        log := (net.view.server id).log ++ [⟨(net.nodes id).currentTerm, command⟩] } := by
      rw [hn]
      rfl
    rw [← hserver] at hinv
    refine ⟨_, base, ⟨by rw [view_setNode]; exact hinv, h.nodes_update ?_⟩, by rw [view_setNode]; exact append_grown _ _ _ _⟩
    exact ⟨by rw [hn]; exact hnode.id_eq, hkept.stores hs, by rw [hn]; exact hnode.applied⟩

theorem send_step {follower : U64} {prev : ℕ} {prevTerm : U64} (h : Sound ids net g base) (hid : id ∈ ids)
    (hfollower : follower ∈ ids) (hne : follower ≠ id) (hrole : (net.nodes id).role = .leader)
    (hprev : prev ≤ (net.nodes id).log.length)
    (hterm : RaftCluster.prevLogTerm (net.nodes id).log prev = .ok prevTerm) :
    Proceeds ids net (net.addAppendRequest follower (request (net.nodes id) prev prevTerm)) g base := by
  refine ⟨g, base, ⟨?_, h.node⟩, grown_same subset_rfl⟩
  rw [view_appendRequest]
  have hsent := h.inv.sent prev prevTerm (List.mem_toFinset.2 hid) (List.mem_toFinset.2 hfollower) hne
    (show mode (net.nodes id).role = .leads by rw [hrole]; rfl) hprev ?_
  · have happend : append (request (net.nodes id) prev prevTerm) = ⟨(net.view.server id).term, id, prev, prevTerm,
        (net.view.server id).log.drop prev, (net.view.server id).commit⟩ := by
      rw [append, request, (h.node id hid).id_eq]
      rfl
    rw [happend]
    exact hsent
  · exact fun hpos => prevLogTerm_entry hprev hterm hpos

/-- A node acknowledges the entries of a leader. -/
theorem Sound.acknowledged (h : Sound ids net g base) (response : AppendResponse) (hid : id ∈ ids)
    (hsuccess : response.success = true → (g.elected (net.nodes id).currentTerm).isSome ∧
      response.term = (net.nodes id).currentTerm ∧ response.matchIndex ≤ (net.nodes id).log.length ∧
      (net.nodes id).log.take response.matchIndex =
        (g.ledger (net.nodes id).currentTerm).take response.matchIndex) :
    Proceeds ids net (net.addAppendResponse id (some response)) g base := by
  refine ⟨g, base, ⟨?_, h.node⟩, ?_⟩
  · rw [view_appendResponse]
    split_ifs with hs
    · obtain ⟨h1, h2, h3, h4⟩ := hsuccess hs
      rw [h2]
      exact h.inv.acknowledged (List.mem_toFinset.2 hid) h1 h3 h4
    · exact h.inv
  · rw [view_appendResponse]
    split_ifs with hs
    · exact grown_same (Set.subset_insert _ _)
    · exact grown_same subset_rfl

theorem appendEntries_step {request : AppendEntries} {r : Res AppendResponse} (h : Sound ids net g base)
    (hmem : (id, request) ∈ net.appendRequests)
    (hrun : (RaftNode.appendEntries request).run (net.nodes id) = (r, n))
    (hstale : ¬ Network.Stale (net.nodes id) request) :
    Proceeds ids net ((net.setNode id n).addAppendResponse id r.toOption) g base := by
  have hsend : (id, append request) ∈ net.view.sends := ⟨request, hmem, rfl⟩
  have hok := h.inv.send id (append request) hsend
  have hid : id ∈ ids := List.mem_toFinset.1 hok.mem
  have hnode := h.node id hid
  obtain ⟨s, hs⟩ := hnode.wal
  have hsome : (g.elected request.term).isSome := by
    rw [show g.elected request.term = some request.leaderId from hok.elected]
    rfl
  have hstep : Sound ids (net.setNode id n) g base ∧ ∀ response, r = .ok response → response.success = true →
      n.currentTerm = request.term ∧ response.term = request.term ∧ response.matchIndex = n.log.length ∧
        n.log = (g.ledger request.term).take n.log.length := by
    rcases RaftNode.appendEntries_spec hs hrun with ⟨rfl, -, m, rfl⟩ | hf
    · refine ⟨by rw [setNode_self]; exact h, fun response hr hg => ?_⟩
      cases hr
      cases hg
    · obtain ⟨vote, log, commit, w, hn, hvote⟩ := hf.rest
      have hle : (net.nodes id).currentTerm ≤ request.term := by
        rcases hvote with ⟨hlt, -⟩ | ⟨heq, -⟩
        · exact hlt.le
        · exact heq.ge
      have hsound : n.lastApplied ≤ n.commitIndex → NodeSound id n := fun happ =>
        ⟨by rw [hn]; exact hnode.id_eq, hf.kept.stores hs, happ⟩
      -- another node leads the term of the request
      have hnot : (net.nodes id).currentTerm = request.term → (net.view.server id).mode ≠ .leads := by
        intro heq hm
        have hlead := (h.inv.leads id hok.mem hm).1
        rw [show (net.view.server id).term = request.term from heq,
          show g.elected request.term = some request.leaderId from hok.elected] at hlead
        exact hok.other (Option.some.inj hlead).symm
      rcases hf.outcome with ⟨-, hlog, hcommit, hr⟩ | ⟨hmatch, hlog, hcommit, hr⟩
      · refine ⟨h.move hid (h.inv.moves hok.mem hlog hcommit ?_) (hsound ?_), fun response hok hg => ?_⟩
        · rcases hvote with ⟨hlt, -⟩ | ⟨heq, hv⟩
          · exact Or.inl ⟨by rw [hn]; exact hlt, by rw [hn]; simp [server, mode]⟩
          · refine Or.inr ⟨by rw [hn]; exact heq, Or.inr ⟨by rw [hn]; rfl, hnot heq.symm⟩, Or.inr ?_⟩
            rw [hn]
            exact hv
        · rw [hcommit, hn]
          exact hnode.applied
        · rw [(hr response hok).2] at hg
          cases hg
      · have hfits : Fits Entry.term (net.view.server id).log (append request) := hmatch
        have hmoves := h.inv.accepts zero_le (s := server n) hsend hle hfits
          (fun hst => hstale ⟨hst.1, hmatch, hst.2⟩) (by rw [hn]; rfl) ?_ (by rw [hn]; rfl) hlog ?_
        · refine ⟨h.move hid hmoves (hsound ?_), fun response hok' hg => ?_⟩
          · have happ : n.lastApplied = (net.nodes id).lastApplied := by rw [hn]
            rw [happ]
            rcases hcommit with hc | ⟨hlt, hc⟩
            · rw [hc]
              exact hnode.applied
            · have hnew := h.inv.log_of_send hsend hok.mem hfits
              have hlen : n.log.length = request.prevLogIndex + request.entries.length := by
                rw [hlog]
                have := congrArg List.length hnew
                rw [List.length_take, Nat.min_eq_left hok.le] at this
                exact this
              rw [hc, hlen, Nat.min_eq_left (show request.leaderCommit ≤ request.prevLogIndex + request.entries.length
                from hok.commit_le)]
              exact hnode.applied.trans hlt.le
          · have hnew := h.inv.log_of_send hsend hok.mem hfits
            have hnew : n.log = (g.ledger request.term).take (request.prevLogIndex + request.entries.length) := by
              rw [hlog]
              exact hnew
            have hlen : n.log.length = request.prevLogIndex + request.entries.length := by
              rw [hnew, List.length_take]
              exact Nat.min_eq_left hok.le
            rw [hr response hok', hlen]
            exact ⟨by rw [hn], rfl, rfl, hnew⟩
        · rcases hvote with ⟨hlt, -⟩ | ⟨-, hv⟩
          · exact Or.inl hlt
          · refine Or.inr ?_
            rw [hn]
            exact hv
        · rcases hcommit with hc | ⟨-, hc⟩
          · exact Or.inl hc
          · exact Or.inr hc
  obtain ⟨hmoved, hsuccess⟩ := hstep
  have hgrown : Grown net.view (net.setNode id n).view g g base base := grown_same subset_rfl
  rcases r with e | response
  · exact ⟨g, base, hmoved, hgrown⟩
  · have hself : (net.setNode id n).nodes id = n := Function.update_self _ _ _
    have hack := hmoved.acknowledged response hid ?_
    · obtain ⟨g', base', hsound, hgrown'⟩ := hack
      exact ⟨g', base', hsound, hgrown'.later, hgrown'.base, hgrown'.acks⟩
    · rw [hself]
      intro hg
      obtain ⟨h1, h2, h3, h4⟩ := hsuccess response rfl hg
      rw [h1, h2, h3, List.take_length]
      exact ⟨hsome, rfl, le_rfl, h4⟩

/-- The leader and the followers whose acknowledgements reach an index. -/
theorem majority_acked (hnodup : ids.Nodup) (h : Sound ids net g base) (hid : id ∈ ids) {replicated : List ℕ}
    (hrep : net.Replicated ids id replicated) (hrole : (net.nodes id).role = .leader) {k : ℕ} (hpos : 0 < k)
    (hk : k ≤ (net.nodes id).log.length)
    (hcopies : (1 + (replicated.filter fun index => decide (index ≥ k)).length) * 2 > replicated.length + 1) :
    Majority ids.toFinset fun q => Acked net.view g q (net.nodes id).currentTerm k := by
  obtain ⟨f, rfl, hf⟩ := hrep
  obtain ⟨hel, hlog⟩ := h.inv.leads id (List.mem_toFinset.2 hid)
    (show mode (net.nodes id).role = .leads by rw [hrole]; rfl)
  rw [List.length_map, length_others hnodup hid, List.filter_map, List.length_map] at hcopies
  refine majority_of_others hnodup hid hcopies (Or.inr ⟨hel, ?_⟩) ?_
  · rw [← show (net.nodes id).log = g.ledger (net.nodes id).currentTerm from hlog]
    exact hk
  · intro q _ _ hp
    have hge : k ≤ f q := of_decide_eq_true hp
    rcases hf q with h0 | ⟨response, hmem, hs, ht, hm⟩
    · omega
    · exact Or.inl ⟨f q, ⟨response, hmem, hs, ht, hm⟩, hge⟩

/-- What `advance_commit` moves the commit index over is chosen. -/
theorem advanceCommit_chosen (hnodup : ids.Nodup) (h : Sound ids net g base) (hid : id ∈ ids)
    {replicated : List ℕ} (hrep : net.Replicated ids id replicated) :
    (net.nodes id).advanceCommit replicated = net.nodes id ∨
      ∃ k, (net.nodes id).commitIndex < k ∧ (net.nodes id).role = .leader ∧
        (net.nodes id).advanceCommit replicated = { net.nodes id with commitIndex := k } ∧
        Chosen Entry.term ids.toFinset net.view g (net.nodes id).currentTerm k := by
  obtain hsame | ⟨k, hlt, hle, hcommit, hcan⟩ := (net.nodes id).advanceCommit_spec replicated
  · exact Or.inl hsame
  · have hrole : (net.nodes id).role = .leader := by
      by_contra hrole
      rw [RaftNode.advanceCommit, if_pos hrole] at hcommit
      have := congrArg RaftNode.commitIndex hcommit
      simp only at this
      omega
    simp only [RaftNode.canCommit, Bool.and_eq_true, decide_eq_true_eq, Option.map_eq_some_iff] at hcan
    obtain ⟨hcopies, e, he, hterm⟩ := hcan
    obtain ⟨hel, hlog⟩ := h.inv.leads id (List.mem_toFinset.2 hid)
      (show mode (net.nodes id).role = .leads by rw [hrole]; rfl)
    have hlog : (net.nodes id).log = g.ledger (net.nodes id).currentTerm := hlog
    refine Or.inr ⟨k, hlt, hrole, hcommit, ?_, by omega, ⟨e, hlog ▸ he, hterm⟩, ?_⟩
    · rw [show g.elected (net.nodes id).currentTerm = some id from hel]
      rfl
    · exact majority_acked hnodup h hid hrep hrole (by omega) hle hcopies

theorem advanceCommit_step (hnodup : ids.Nodup) (h : Sound ids net g base) (hid : id ∈ ids)
    {replicated : List ℕ} (hrep : net.Replicated ids id replicated) :
    Sound ids (net.setNode id ((net.nodes id).advanceCommit replicated)) g base := by
  rcases advanceCommit_chosen hnodup h hid hrep with hsame | ⟨k, hlt, hrole, hcommit, hchosen⟩
  · rw [hsame, setNode_self]
    exact h
  · have hnode := h.node id hid
    rw [hcommit]
    refine h.move hid (h.inv.commits (List.mem_toFinset.2 hid)
      (show mode (net.nodes id).role = .leads by rw [hrole]; rfl) hchosen) ?_
    exact ⟨hnode.id_eq, hnode.wal, hnode.applied.trans hlt.le⟩

theorem takeApplied_step {entries : List Entry} (h : Sound ids net g base) (hid : id ∈ ids)
    (hrun : (net.nodes id).takeApplied = .ok (entries, n)) : Sound ids (net.setNode id n) g base := by
  have hnode := h.node id hid
  obtain ⟨hcommit, -⟩ := h.inv.commit id (List.mem_toFinset.2 hid)
  obtain ⟨entries', htake, -⟩ := RaftNode.takeApplied_spec hnode.applied hcommit
  rw [hrun] at htake
  cases htake
  refine h.move hid (h.inv.moves (List.mem_toFinset.2 hid) rfl rfl (Or.inr ⟨rfl, Or.inl rfl, Or.inr rfl⟩)) ?_
  exact ⟨hnode.id_eq, hnode.wal, le_rfl⟩

/-- **One step.** -/
theorem Sound.step (hnodup : ids.Nodup) (h : Sound ids net g base) {event : NetEvent}
    (hstep : NetStep ids net event net')
    (hcare : ∀ id request, event = .appendEntries id request → ¬ Network.Stale (net.nodes id) request) :
    Proceeds ids net net' g base := by
  cases hstep with
  | startElection hid hrun => exact startElection_step h hid hrun
  | requestVote hid hmem hne hrun => exact requestVote_step h hid hmem hrun
  | observeTerm hid hrun => exact observeTerm_step h hid hrun
  | becomeLeader hid hrole hreq hvotes => exact becomeLeader_step hnodup h hid hrole hreq hvotes
  | appendAsLeader hid hrun => exact appendAsLeader_step h hid hrun
  | send hid hfollower hne hrole hprev hterm => exact send_step h hid hfollower hne hrole hprev hterm
  | appendEntries hmem hrun => exact appendEntries_step h hmem hrun (hcare _ _ rfl)
  | advanceCommit hid hrep =>
    exact ⟨g, base, advanceCommit_step hnodup h hid hrep, grown_same subset_rfl⟩
  | takeApplied hid hrun => exact ⟨g, base, takeApplied_step h hid hrun, grown_same subset_rfl⟩

end Steps

/-! ## Runs -/

/-- What the leaders have moved their commit index over in a run is chosen. -/
def Remembers (ids : List U64) (steps : List (Network × NetEvent)) (net : Network) (g : Ghost U64 U64 Entry) :
    Prop :=
  ∀ before id replicated, (before, NetEvent.advanceCommit id replicated) ∈ steps →
    ∀ k, (before.nodes id).commitIndex < k →
      k ≤ ((before.nodes id).advanceCommit replicated).commitIndex →
      ∃ t j, Chosen Entry.term ids.toFinset net.view g t j ∧ k ≤ j ∧
        (before.nodes id).log.take j = (g.ledger t).take j

section Runs
variable {ids : List U64} {net net' : Network} {g g' : Ghost U64 U64 Entry} {base base' : U64 → ℕ}
  {steps : List (Network × NetEvent)}

theorem Remembers.grown (h : Remembers ids steps net g) (hg : Grown net.view net'.view g g' base base') :
    Remembers ids steps net' g' := by
  intro before id replicated hmem k hlt hle
  obtain ⟨t, j, hch, hj, htake⟩ := h before id replicated hmem k hlt hle
  refine ⟨t, j, hch.grown hg, hj, ?_⟩
  rw [htake, take_of_grown (hg.later.isSome hch.elected).2 hch.length_le]

/-- A step adds what it commits. -/
theorem Remembers.cons (hnodup : ids.Nodup) (h : Remembers ids steps net g) (hs : Sound ids net g base)
    {event : NetEvent} (hstep : NetStep ids net event net') : Remembers ids ((net, event) :: steps) net g := by
  intro before id replicated hmem k hlt hle
  rcases List.mem_cons.1 hmem with heq | hmem
  · cases heq
    cases hstep with
    | advanceCommit hid hrep =>
      rcases advanceCommit_chosen hnodup hs hid hrep with hsame | ⟨j, -, hrole, hcommit, hchosen⟩
      · rw [hsame] at hle
        omega
      · rw [hcommit] at hle
        obtain ⟨-, hlog⟩ := hs.inv.leads id (List.mem_toFinset.2 hid)
          (show mode (net.nodes id).role = .leads by rw [hrole]; rfl)
        exact ⟨_, j, hchosen, hle, congrArg (List.take j) hlog⟩
  · exact h before id replicated hmem k hlt hle

theorem sound_start (h : Fresh ids net) :
    Sound ids net ⟨fun _ => none, fun _ => [], ∅, ∅⟩ fun _ => 0 := by
  obtain ⟨hnodes, h1, h2, h3, h4⟩ := h
  have hnew : ∀ id ∈ ids, ∃ timeout, net.nodes id =
      { id := id, wal := [], currentTerm := 0, votedFor := none, log := [], electionTimeoutMs := timeout } := by
    intro id hid
    obtain ⟨seed, hopen⟩ := hnodes id hid
    obtain ⟨timeout, hopen'⟩ := RaftNode.openNode_stores id seed
      (show Stores ((none : Option Bytes).getD []) {} from stores_nil)
    rw [hopen] at hopen'
    exact ⟨timeout, Except.ok.inj hopen'⟩
  refine ⟨netInv_start ?_ ?_ ?_ ?_ ?_, ?_⟩
  · intro id hid
    obtain ⟨timeout, hn⟩ := hnew id (List.mem_toFinset.1 hid)
    refine ⟨.follows, ?_, by simp⟩
    show server (net.nodes id) = _
    rw [hn]
    rfl
  · ext a
    simp [view, h1]
  · ext x
    simp [view, Cast, h1, h2]
  · ext x
    simp [view, h3]
  · ext x
    simp [view, h4]
  · intro id hid
    obtain ⟨timeout, hn⟩ := hnew id hid
    rw [hn]
    exact ⟨rfl, ⟨_, stores_nil⟩, le_rfl⟩

theorem sound_run (hnodup : ids.Nodup) {net₀ : Network} (hfresh : Fresh ids net₀)
    (hrun : Trace (NetStep ids) net₀ steps net) (hcare : Careful steps) :
    ∃ g base, Sound ids net g base ∧ Remembers ids steps net g := by
  induction hrun with
  | refl => exact ⟨_, _, sound_start hfresh, fun before id replicated hmem => (nomatch hmem)⟩
  | step _ hstep ih =>
    obtain ⟨g, base, hs, hrem⟩ := ih fun net id request hmem => hcare net id request (List.mem_cons_of_mem _ hmem)
    obtain ⟨g', base', hs', hgrown⟩ := hs.step hnodup hstep fun id request heq =>
      hcare _ id request (by rw [heq]; exact List.mem_cons_self)
    exact ⟨g', base', hs', (hrem.cons hnodup hs hstep).grown hgrown⟩

end Runs

/-- **Committed entries stay**: in every run in which no stale request is delivered, an entry that a
    leader has moved its commit index over is in the logs of a majority in every later state, and the
    indices of every node are in order. -/
theorem committed_kept {ids : List U64} (hnodup : ids.Nodup) {net₀ net : Network}
    {steps : List (Network × NetEvent)} (hfresh : Fresh ids net₀)
    (hrun : Trace (NetStep ids) net₀ steps net) (hcare : Careful steps) :
    (∀ before id replicated, (before, NetEvent.advanceCommit id replicated) ∈ steps →
      ∀ k, (before.nodes id).commitIndex < k →
        k ≤ ((before.nodes id).advanceCommit replicated).commitIndex →
        ∃ e, (before.nodes id).log[k - 1]? = some e ∧
          Majority ids.toFinset fun q => (net.nodes q).log[k - 1]? = some e) ∧
    ∀ id ∈ ids, (net.nodes id).lastApplied ≤ (net.nodes id).commitIndex ∧
      (net.nodes id).commitIndex ≤ (net.nodes id).log.length := by
  obtain ⟨g, base, hs, hrem⟩ := sound_run hnodup hfresh hrun hcare
  constructor
  · intro before id replicated hmem k hlt hle
    obtain ⟨t, j, hch, hj, htake⟩ := hrem before id replicated hmem k hlt hle
    have hget : ∀ {log : List Entry}, log.take j = (g.ledger t).take j → log[k - 1]? = (g.ledger t)[k - 1]? := by
      intro log hlog
      have := congrArg (fun l => l[k - 1]?) hlog
      simpa only [List.getElem?_take, show k - 1 < j by omega, if_true] using this
    have hlen : k - 1 < (g.ledger t).length := by
      have := hch.length_le
      omega
    have he := List.getElem?_eq_getElem hlen
    refine ⟨_, (hget htake).trans he, (hs.inv.held zero_le hch).mono fun q _ hq => ?_⟩
    exact (hget hq).trans he
  · intro id hid
    exact ⟨(hs.node id hid).applied, (hs.inv.commit id (List.mem_toFinset.2 hid)).1⟩

/-- New nodes. -/
def newNodes : Network where
  nodes := fun id =>
    { id := id, wal := [], currentTerm := 0, votedFor := none, log := []
      electionTimeoutMs := 150 + (mix (UInt64.ofNat 0 ^^^ UInt64.ofNat id.val)).toNat % 151 }

theorem newNodes_fresh (ids : List U64) : Fresh ids newNodes :=
  ⟨fun _ _ => ⟨0, rfl⟩, rfl, rfl, rfl, rfl⟩

/-- The entries of a leader of term 1. -/
def entry (command : UInt8) : Entry := ⟨1, [command]⟩

/-- The request of the leader for its log. -/
def fullRequest (log : List Entry) : AppendEntries := ⟨1, 1, 0, 0, log, 0⟩

/-- Node 1 leads, sends its log to node 2 twice, and commits two entries on the answer to the second
    request. -/
theorem commit_run : ∃ steps net, Trace (NetStep [1, 2, 3]) newNodes steps net ∧
    steps.map Prod.snd = [.advanceCommit 1 [2, 0], .appendEntries 2 (fullRequest [entry 97, entry 98]), .send 1 2 0,
      .appendAsLeader 1 [98], .send 1 2 0, .appendAsLeader 1 [97], .becomeLeader 1,
      .requestVote 2 ⟨1, 1, 0, 0⟩, .startElection 1] ∧
    Careful steps ∧
    (∃ before, (before, .advanceCommit 1 [2, 0]) ∈ steps ∧ (before.nodes 1).commitIndex = 0 ∧
      ((before.nodes 1).advanceCommit [2, 0]).commitIndex = 2 ∧ (before.nodes 1).log = [entry 97, entry 98]) ∧
    (net.nodes 1).log = [entry 97, entry 98] ∧ (net.nodes 2).currentTerm = 1 ∧
    (net.nodes 2).log = [entry 97, entry 98] ∧ (net.nodes 3).log = [] ∧
    (2, fullRequest [entry 97]) ∈ net.appendRequests := by
  have hrun : Trace (NetStep [1, 2, 3]) newNodes _ _ := .refl _
  have hrun := hrun.step (@NetStep.startElection _ _ 1 _ _ (by decide) Prod.mk.eta.symm)
  have hrun := hrun.step (@NetStep.requestVote _ _ 2 ⟨1, 1, 0, 0⟩ _ _ (by decide) (by decide +kernel) (by decide) Prod.mk.eta.symm)
  have hrun := hrun.step (@NetStep.becomeLeader _ _ 1 (by decide) (by decide +kernel) (by decide +kernel) (by decide +kernel))
  have hrun := hrun.step (@NetStep.appendAsLeader _ _ 1 [97] _ _ (by decide) Prod.mk.eta.symm)
  have hrun := hrun.step (@NetStep.send _ _ 1 2 0 0 (by decide) (by decide) (by decide) (by decide +kernel) (by decide) rfl)
  have hrun := hrun.step (@NetStep.appendAsLeader _ _ 1 [98] _ _ (by decide) Prod.mk.eta.symm)
  have hrun := hrun.step (@NetStep.send _ _ 1 2 0 0 (by decide) (by decide) (by decide) (by decide +kernel) (by decide) rfl)
  have hrun := hrun.step (@NetStep.appendEntries _ _ 2 (fullRequest [entry 97, entry 98]) _ _ (by decide +kernel) Prod.mk.eta.symm)
  have hrun := hrun.step (@NetStep.advanceCommit _ _ 1 [2, 0] (by decide)
    ⟨fun q => if q = 2 then 2 else 0, by decide, fun q => by
      by_cases hq : q = 2
      · refine Or.inr ⟨⟨1, true, 2⟩, ?_⟩
        rw [hq]
        decide +kernel
      · exact Or.inl (if_neg hq)⟩)
  refine ⟨_, _, hrun, rfl, ?_, ⟨_, List.mem_cons_self, ?_⟩, ?_⟩
  · rintro net id request hmem ⟨-, -, -, hlt⟩
    simp only [List.mem_cons, Prod.mk.injEq, reduceCtorEq, and_false, false_or, List.not_mem_nil, or_false, NetEvent.appendEntries.injEq] at hmem
    obtain ⟨rfl, rfl, rfl⟩ := hmem
    revert hlt
    decide +kernel
  · decide +kernel
  · decide +kernel

theorem committed_kept_second : ∃ steps net before e, Trace (NetStep [1, 2, 3]) newNodes steps net ∧
    (before, .advanceCommit 1 [2, 0]) ∈ steps ∧ (before.nodes 1).log[1]? = some e ∧
    Majority [1, 2, 3].toFinset fun q => (net.nodes q).log[1]? = some e := by
  obtain ⟨steps, net, hrun, -, hcare, ⟨before, hmem, h0, h2, -⟩, -⟩ := commit_run
  obtain ⟨e, he, hmaj⟩ := (committed_kept (by decide) (newNodes_fresh _) hrun hcare).1 before 1 [2, 0] hmem 2
    (by omega) (by omega)
  exact ⟨steps, net, before, e, hrun, hmem, he, hmaj⟩

/-- **A stale request takes a committed entry away**: when the first request arrives after the commit,
    node 2 cuts its log behind it. -/
theorem not_committed_kept : ∃ steps net before, Trace (NetStep [1, 2, 3]) newNodes steps net ∧
    (before, .advanceCommit 1 [2, 0]) ∈ steps ∧ (before.nodes 1).commitIndex < 2 ∧
    2 ≤ ((before.nodes 1).advanceCommit [2, 0]).commitIndex ∧
    ¬ ∃ e, (before.nodes 1).log[2 - 1]? = some e ∧
      Majority [1, 2, 3].toFinset fun q => (net.nodes q).log[2 - 1]? = some e := by
  obtain ⟨steps, net, hrun, -, hcare, ⟨before, hmem, h0, h2, -⟩, hlog1, hterm2, hlog2, hlog3, hreq⟩ := commit_run
  obtain ⟨g, base, hs, -⟩ := sound_run (by decide) (newNodes_fresh _) hrun hcare
  obtain ⟨s, hstores⟩ := (hs.node 2 (by decide)).wal
  obtain ⟨r, n, hstep⟩ : ∃ r n, (RaftNode.appendEntries (fullRequest [entry 97])).run (net.nodes 2) = (r, n) :=
    ⟨_, _, Prod.mk.eta.symm⟩
  have hlog : n.log = [entry 97] := by
    rcases RaftNode.appendEntries_spec hstores hstep with ⟨-, hlt, -⟩ | hf
    · rw [hterm2] at hlt
      exact absurd hlt (lt_irrefl _)
    · rcases hf.outcome with ⟨hpos, -⟩ | ⟨-, hlog, -⟩
      · exact absurd hpos (lt_irrefl _)
      · exact hlog
  refine ⟨_, _, before, hrun.step (.appendEntries hreq hstep), List.mem_cons_of_mem _ hmem, by omega, by omega, ?_⟩
  rintro ⟨e, he, Q, hQ, hcard, hall⟩
  -- only node 1 has a second entry
  have hsub : Q ⊆ {1} := by
    intro q hq
    have hget := hall q hq
    have hq' := hQ hq
    simp only [List.toFinset_cons, List.toFinset_nil, Finset.mem_insert, Finset.notMem_empty, or_false] at hq'
    rcases hq' with rfl | rfl | rfl
    · exact Finset.mem_singleton_self _
    · rw [show ((net.setNode 2 n).addAppendResponse 2 r.toOption).nodes 2 = n from
        by show Function.update net.nodes 2 n 2 = n; rw [Function.update_self], hlog] at hget
      cases hget
    · rw [show ((net.setNode 2 n).addAppendResponse 2 r.toOption).nodes 3 = net.nodes 3 from
        Function.update_of_ne (show (3 : U64) ≠ 2 by decide) n net.nodes, hlog3] at hget
      cases hget
  have := Finset.card_le_card hsub
  simp at this hcard
  omega

end Network

end Raft

end NutDb
