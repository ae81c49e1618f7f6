/-
  Raft nodes that crash and start again, on a network that delays, repeats,
  reorders and loses messages.

  A crash in the middle of an event cuts the log file of the node anywhere behind
  what was there before, and sends nothing; the node is opened again on what is
  left.  However stale the requests are that arrive, a term has one leader, which
  only appends, and logs match (`crash_one_leader`, `crash_logs_match`): that a stale request takes
  acknowledged entries away costs committed entries, not these.
-/
import NutDb.Lib.RaftLogs
import NutDb.Raft.Crash
import NutDb.Raft.NetworkSafety

namespace NutDb

open Lib Lib.Raft

namespace Raft

/-! ## Events and crashes -/

/-- The node of an event. -/
def NetEvent.node : NetEvent → U64
  | .startElection id => id
  | .requestVote id _ => id
  | .observeTerm id _ => id
  | .becomeLeader id => id
  | .appendAsLeader id _ => id
  | .send leader _ _ => leader
  | .appendEntries id _ => id
  | .advanceCommit id _ => id
  | .takeApplied id => id

/-- The call of an event, of those that can write the state. -/
def NetEvent.call : NetEvent → Option RaftNode.Call
  | .startElection _ => some .startElection
  | .requestVote _ request => some (.requestVote request)
  | .observeTerm _ term => some (.observeTerm term)
  | .becomeLeader _ => some .becomeLeader
  | .appendAsLeader _ command => some (.appendAsLeader command)
  | .send _ _ _ => none
  | .appendEntries _ request => some (.appendEntries request)
  | .advanceCommit _ _ => none
  | .takeApplied _ => none

/-- What happens in a step: an event, or a crash in the middle of one. -/
inductive CrashEvent where
  | event (event : NetEvent)
  | crash (event : NetEvent)
  deriving DecidableEq

namespace RaftNode
variable {n n' : RaftNode} {s : PersistentState}

/-- A call keeps the id of the node. -/
theorem Call.id_eq {call : Call} (hs : Stores n.wal s) {r : Res Answer} (h : call.act.run n = (r, n')) :
    n'.id = n.id := by
  cases call with
  | becomeLeader =>
    cases h
    rfl
  | startElection =>
    obtain ⟨r', hrun, -⟩ := handle_eq h
    obtain ⟨rfl, -⟩ | ⟨term, w, -, hn, -⟩ := startElection_spec hs hrun
    · rfl
    · rw [hn]
  | observeTerm term =>
    obtain ⟨r', hrun, -⟩ := handle_eq h
    rcases observeTerm_spec hs hrun with rfl | ⟨w, -, hn, -⟩
    · rfl
    · rw [hn]
  | requestVote request =>
    obtain ⟨r', hrun, -⟩ := handle_eq h
    rcases requestVote_spec hs hrun with ⟨rfl, -⟩ | hv
    · rfl
    · obtain ⟨vote, role, leaderId, w, hn⟩ := hv.rest
      rw [hn]
  | appendEntries request =>
    obtain ⟨r', hrun, -⟩ := handle_eq h
    rcases appendEntries_spec hs hrun with ⟨rfl, -⟩ | hf
    · rfl
    · obtain ⟨vote, log, commit, w, hn, -⟩ := hf.rest
      rw [hn]
  | appendAsLeader command =>
    obtain ⟨r', hrun, -⟩ := handle_eq h
    rcases appendAsLeader_spec hs hrun with ⟨rfl, -⟩ | ⟨-, w, hn, -⟩
    · rfl
    · rw [hn]

/-- A node that is opened follows. -/
theorem openNode_role {id seed : U64} {file : Option Bytes} (h : openNode id file seed = .ok n) :
    n.role = .follower := by
  rw [openNode, Res.bind_eq_ok] at h
  obtain ⟨s, -, h⟩ := h
  cases h
  rfl

end RaftNode

namespace Network

/-- The steps of nodes that crash and are opened again. -/
inductive CrashStep (ids : List U64) : Network → CrashEvent → Network → Prop
  | event {net net' : Network} {event : NetEvent} : NetStep ids net event net' →
      CrashStep ids net (.event event) net'
  | crash {net net' : Network} {event : NetEvent} {seed : U64} {n : RaftNode} (cut : Bytes) :
      NetStep ids net event net' → (net.nodes event.node).wal <+: cut →
      cut <+: (net'.nodes event.node).wal → RaftNode.openNode event.node (some cut) seed = .ok n →
      CrashStep ids net (.crash event) (net.setNode event.node n)

/-- No event returns an error from the log file, be it of the disk or of the size of the record. -/
def AllSaved (steps : List (Network × CrashEvent)) : Prop :=
  ∀ net event, (net, CrashEvent.event event) ∈ steps → ∀ call, event.call = some call →
    ∀ e n, call.act.run (net.nodes event.node) = (.error e, n) → call.Refused (net.nodes event.node)

/-- The states of a run, newest first. -/
def states (steps : List (Network × CrashEvent)) (net : Network) : List Network := net :: steps.map Prod.fst

/-- Leaders of the same term are the same node, and it has not lost or changed an entry since. -/
def Continues (ids : List U64) (before net : Network) : Prop :=
  ∀ p ∈ ids, ∀ q ∈ ids, (before.nodes p).role = .leader → (net.nodes q).role = .leader →
    (before.nodes p).currentTerm = (net.nodes q).currentTerm →
    p = q ∧ (before.nodes p).log <+: (net.nodes q).log

section Events
variable {ids : List U64} {net net' : Network} {event : NetEvent} {n n' : RaftNode} {id : U64}

/-- A handler as a call. -/
theorem act_of_run {α β : Type} {x : Act RaftNode α} {f : α → β} {r : Res α} (h : x.run n = (r, n')) :
    (do let a ← x; return f a : Act RaftNode β).run n = (r.map f, n') := by
  rcases r with e | a
  · exact Act.run_bind_error h
  · exact Act.run_bind_ok h

/-- An event changes one node. -/
theorem NetStep.nodes_eq (h : NetStep ids net event net') :
    net'.nodes = Function.update net.nodes event.node (net'.nodes event.node) := by
  have hself : ∀ (id : U64) (n : RaftNode), Function.update net.nodes id n =
      Function.update net.nodes id (Function.update net.nodes id n id) := by
    intro id n
    rw [Function.update_self]
  cases h with
  | send => exact (Function.update_eq_self _ _).symm
  | startElection | requestVote | observeTerm | becomeLeader | appendAsLeader | appendEntries | advanceCommit
  | takeApplied => exact hself _ _

/-- An event runs its call. -/
theorem NetStep.called {call : RaftNode.Call} (h : NetStep ids net event net') (hcall : event.call = some call) :
    ∃ r, call.act.run (net.nodes event.node) = (r, net'.nodes event.node) := by
  suffices h : ∃ r n, call.act.run (net.nodes event.node) = (r, n) ∧ net'.nodes event.node = n by
    obtain ⟨r, n, hrun, hn⟩ := h
    exact ⟨r, hn ▸ hrun⟩
  cases h with
  | startElection _ hrun | requestVote _ _ _ hrun | observeTerm _ hrun | appendAsLeader _ hrun
  | appendEntries _ hrun =>
    cases hcall
    exact ⟨_, _, act_of_run hrun, Function.update_self _ _ _⟩
  | becomeLeader =>
    cases hcall
    exact ⟨_, _, rfl, Function.update_self _ _ _⟩
  | send | advanceCommit | takeApplied => cases hcall

/-- An event without a call leaves the id, the persistent state and the log file alone. -/
theorem NetStep.uncalled (h : NetStep ids net event net') (hcall : event.call = none) :
    (net'.nodes event.node).id = (net.nodes event.node).id ∧
      (net'.nodes event.node).state = (net.nodes event.node).state ∧
      (net'.nodes event.node).wal = (net.nodes event.node).wal := by
  cases h with
  | send => exact ⟨rfl, rfl, rfl⟩
  | @advanceCommit id replicated _ _ =>
    rw [show (net.setNode id ((net.nodes id).advanceCommit replicated)).nodes
      (NetEvent.advanceCommit id replicated).node = _ from Function.update_self _ _ _]
    obtain hsame | ⟨k, -, -, hcommit, -⟩ := (net.nodes id).advanceCommit_spec replicated
    · rw [hsame]
      exact ⟨rfl, rfl, rfl⟩
    · rw [hcommit]
      exact ⟨rfl, rfl, rfl⟩
  | @takeApplied id entries n _ hrun =>
    rw [show (net.setNode id n).nodes (NetEvent.takeApplied id).node = n from Function.update_self _ _ _]
    rw [RaftNode.takeApplied, Res.bind_eq_ok] at hrun
    obtain ⟨_, -, hn⟩ := hrun
    cases hn
    exact ⟨rfl, rfl, rfl⟩
  | startElection | requestVote | observeTerm | becomeLeader | appendAsLeader | appendEntries => cases hcall

end Events

/-! ## Events -/

/-- The invariant: that of elections and logs, and every node has its state on disk. -/
structure Steady (ids : List U64) (net : Network) (g : Ghost U64 U64 Entry) : Prop where
  inv : LogInv Entry.term ids.toFinset net.view g
  node : ∀ id ∈ ids, (net.nodes id).id = id ∧ Stores (net.nodes id).wal (net.nodes id).state

/-- An event keeps the invariant of elections and logs, also before its message is sent. -/
def Advances (ids : List U64) (net net' : Network) (id : U64) (g : Ghost U64 U64 Entry) : Prop :=
  ∃ g', g.Later g' ∧ LogInv Entry.term ids.toFinset (net.setNode id (net'.nodes id)).view g' ∧
    LogInv Entry.term ids.toFinset net'.view g'

section Steps
variable {ids : List U64} {net net' : Network} {g : Ghost U64 U64 Entry} {event : NetEvent} {id : U64}
  {n : RaftNode}

theorem nodes_setNode (net : Network) (id : U64) (n : RaftNode) : (net.setNode id n).nodes id = n :=
  Function.update_self ..

theorem setNode_twice (net : Network) (id : U64) (n n' : RaftNode) :
    (net.setNode id n).setNode id n' = net.setNode id n' := by
  rw [setNode, setNode, setNode]
  simp only [Function.update_idem]

/-- An event that changes a node only. -/
theorem advances_node {g' : Ghost U64 U64 Entry} (hg : g.Later g')
    (h : LogInv Entry.term ids.toFinset (net.setNode id n).view g') :
    Advances ids net (net.setNode id n) id g :=
  ⟨g', hg, by rw [nodes_setNode]; exact h, h⟩

/-- A change of one node that sends nothing. -/
theorem Steady.move (h : Steady ids net g) (hid : id ∈ ids) (hm : Turns Entry.term net.view g id (server n)) :
    LogInv Entry.term ids.toFinset (net.setNode id n).view g := by
  rw [view_setNode]
  exact h.inv.update (List.mem_toFinset.2 hid) hm

theorem Steady.startElection (h : Steady ids net g) (hid : id ∈ ids) {r : Res RequestVote}
    (hrun : RaftNode.startElection.run (net.nodes id) = (r, n)) :
    Advances ids net ((net.setNode id n).addVoteRequest r.toOption) id g := by
  obtain ⟨hself, hs⟩ := h.node id hid
  have hnodes : ((net.setNode id n).addVoteRequest r.toOption).nodes id = n := nodes_setNode net id n
  rw [Advances, hnodes]
  obtain ⟨rfl, e, rfl⟩ | ⟨term, w, hlt, hn, -, hr⟩ := RaftNode.startElection_spec hs hrun
  · rw [setNode_self]
    exact ⟨g, .refl g, h.inv, h.inv⟩
  · have hmoved := h.move hid (n := n) (h.inv.turns (List.mem_toFinset.2 hid) (by rw [hn]; rfl) (Or.inl ?_))
    · refine ⟨g, .refl g, hmoved, ?_⟩
      rcases r with e | request
      · exact hmoved
      · obtain ⟨hreq, -⟩ := hr request rfl
        have hvoted := hmoved.voted (v := id) (t := request.term) (c := request.candidateId) ?_ ?_
        · rw [show (Except.ok request : Res RequestVote).toOption = some request from rfl, view_voteRequest]
          rw [show request.candidateId = id by rw [hreq]; exact hself] at hvoted ⊢
          exact hvoted.messages rfl rfl rfl
        · show ((net.setNode id n).nodes id).currentTerm = _
          rw [nodes_setNode, hreq, hn]
        · show ((net.setNode id n).nodes id).votedFor = _
          rw [nodes_setNode, hreq, hn]
    · rw [hn]
      exact ⟨hlt, by simp [server, mode]⟩

theorem Steady.requestVote (h : Steady ids net g) (hid : id ∈ ids) {request : RequestVote} {r : Res VoteResponse}
    (hrun : (RaftNode.requestVote request).run (net.nodes id) = (r, n)) :
    Advances ids net ((net.setNode id n).addVote id request.candidateId r.toOption) id g := by
  obtain ⟨-, hs⟩ := h.node id hid
  have hnodes : ((net.setNode id n).addVote id request.candidateId r.toOption).nodes id = n :=
    nodes_setNode net id n
  rw [Advances, hnodes]
  suffices hmoved : LogInv Entry.term ids.toFinset (net.setNode id n).view g ∧ ∀ response, r = .ok response →
      response.granted = true → response.term = n.currentTerm ∧ n.votedFor = some request.candidateId by
    obtain ⟨hmoved, hgranted⟩ := hmoved
    refine ⟨g, .refl g, hmoved, ?_⟩
    rcases r with e | response
    · exact hmoved
    · rw [show (Except.ok response : Res VoteResponse).toOption = some response from rfl, view_vote]
      split_ifs with hg
      · obtain ⟨hterm, hvote⟩ := hgranted response rfl hg
        refine hmoved.voted ?_ ?_
        · show ((net.setNode id n).nodes id).currentTerm = _
          rw [nodes_setNode, hterm]
        · show ((net.setNode id n).nodes id).votedFor = _
          rw [nodes_setNode, hvote]
      · exact hmoved
  rcases @RaftNode.requestVoteOr_spec (net.nodes id) n none request r hrun with
    ⟨rfl, -, rfl⟩ | ⟨hle, -, ⟨w, hn⟩, hr⟩
  · refine ⟨by rw [setNode_self]; exact h.inv, fun response hr hg => ?_⟩
    cases hr
    cases hg
  · obtain ⟨vote, role, leaderId, hcast, hgrant, hcase⟩ := RaftNode.castVote_stepDown hle
    rw [hcast] at hn
    refine ⟨h.move hid (h.inv.turns (List.mem_toFinset.2 hid) (by rw [hn]; rfl) ?_), fun response hok hg => ?_⟩
    · rcases hcase with ⟨hlt, rfl⟩ | ⟨heq, rfl, hvote⟩
      · exact Or.inl ⟨by rw [hn]; exact hlt, by rw [hn]; simp [server, mode]⟩
      · exact Or.inr ⟨by rw [hn]; exact heq.symm, Or.inl (by rw [hn]; rfl), by rw [hn]; exact hvote⟩
    · have hresponse := hr response hok
      rw [hresponse] at hg ⊢
      rw [hn]
      exact ⟨rfl, (hgrant hg).1⟩

theorem Steady.observeTerm (h : Steady ids net g) (hid : id ∈ ids) {term : U64} {r : Res Unit}
    (hrun : (RaftNode.observeTerm term).run (net.nodes id) = (r, n)) :
    Advances ids net (net.setNode id n) id g := by
  obtain ⟨-, hs⟩ := h.node id hid
  refine advances_node (.refl g) ?_
  rcases RaftNode.observeTerm_spec hs hrun with rfl | ⟨w, hlt, hn, -⟩
  · rw [setNode_self]
    exact h.inv
  · refine h.move hid (h.inv.turns (List.mem_toFinset.2 hid) (by rw [hn]; rfl) (Or.inl ?_))
    rw [hn]
    exact ⟨hlt, by simp [server, mode]⟩

theorem Steady.becomeLeader (hnodup : ids.Nodup) (h : Steady ids net g) (hid : id ∈ ids)
    (hrole : (net.nodes id).role = .candidate)
    (hreq : ∃ request ∈ net.voteRequests, request.term = (net.nodes id).currentTerm ∧ request.candidateId = id)
    (hvotes : (net.supporters ids id).length * 2 > ids.length) :
    Advances ids net (net.setNode id (net.nodes id).becomeLeader) id g := by
  obtain ⟨hnone, hinv⟩ := h.inv.won (List.mem_toFinset.2 hid)
    (show mode (net.nodes id).role = .stands by rw [hrole]; rfl) (supporters_majority hnodup hreq hvotes)
  rw [show ({ net.view.server id with mode := .leads } : Server U64 U64 Entry) =
    server (net.nodes id).becomeLeader from rfl, ← view_setNode] at hinv
  exact advances_node (elect_later hnone _ _) hinv

theorem Steady.appendAsLeader (h : Steady ids net g) (hid : id ∈ ids) {command : Bytes} {r : Res ℕ}
    (hrun : (RaftNode.appendAsLeader command).run (net.nodes id) = (r, n)) :
    Advances ids net (net.setNode id n) id g := by
  obtain ⟨-, hs⟩ := h.node id hid
  rcases RaftNode.appendAsLeader_spec hs hrun with ⟨rfl, -⟩ | ⟨hrole, w, hn, -, -⟩
  · refine advances_node (.refl g) ?_
    rw [setNode_self]
    exact h.inv
  · have hleads : (net.view.server id).mode = .leads := by
      show mode (net.nodes id).role = .leads
      rw [hrole]
      rfl
    have hinv := h.inv.led (e := ⟨(net.nodes id).currentTerm, command⟩) (List.mem_toFinset.2 hid) hleads rfl
    have hserver : server n = { net.view.server id with
        log := (net.view.server id).log ++ [⟨(net.nodes id).currentTerm, command⟩] } := by
      rw [hn]
      rfl
    rw [← hserver, ← view_setNode] at hinv
    exact advances_node (append_later _) hinv

theorem Steady.send (h : Steady ids net g) (hid : id ∈ ids) {follower : U64} {prev : ℕ} {prevTerm : U64}
    (hfollower : follower ∈ ids) (hne : follower ≠ id) (hrole : (net.nodes id).role = .leader)
    (hprev : prev ≤ (net.nodes id).log.length)
    (hterm : RaftCluster.prevLogTerm (net.nodes id).log prev = .ok prevTerm) :
    Advances ids net (net.addAppendRequest follower (request (net.nodes id) prev prevTerm)) id g := by
  refine ⟨g, .refl g, ?_, ?_⟩
  · show LogInv _ _ (net.setNode id (net.nodes id)).view g
    rw [setNode_self]
    exact h.inv
  · have hsent := h.inv.sent prev prevTerm (net.nodes id).commitIndex (List.mem_toFinset.2 hid)
      (List.mem_toFinset.2 hfollower) hne (show mode (net.nodes id).role = .leads by rw [hrole]; rfl) hprev ?_
    · have happend : append (request (net.nodes id) prev prevTerm) = ⟨(net.view.server id).term, id, prev, prevTerm,
          (net.view.server id).log.drop prev, (net.nodes id).commitIndex⟩ := by
        rw [append, request, (h.node id hid).1]
        rfl
      rw [view_appendRequest, happend]
      exact hsent
    · exact fun hpos => prevLogTerm_entry hprev hterm hpos

theorem Steady.appendEntries (h : Steady ids net g) {request : AppendEntries} {r : Res AppendResponse}
    (hmem : (id, request) ∈ net.appendRequests)
    (hrun : (RaftNode.appendEntries request).run (net.nodes id) = (r, n)) :
    Advances ids net ((net.setNode id n).addAppendResponse id r.toOption) id g := by
  have hsend : (id, append request) ∈ net.view.sends := ⟨request, hmem, rfl⟩
  have hok := h.inv.send id (append request) hsend
  have hid : id ∈ ids := List.mem_toFinset.1 hok.mem
  obtain ⟨-, hs⟩ := h.node id hid
  have hnodes : ((net.setNode id n).addAppendResponse id r.toOption).nodes id = n := nodes_setNode net id n
  rw [Advances, hnodes]
  suffices hmoved : LogInv Entry.term ids.toFinset (net.setNode id n).view g by
    refine ⟨g, .refl g, hmoved, ?_⟩
    rcases r with e | response
    · exact hmoved
    · rw [show (Except.ok response : Res AppendResponse).toOption = some response from rfl, view_appendResponse]
      split_ifs with hsuccess
      · exact hmoved.messages rfl rfl rfl
      · exact hmoved
  rcases RaftNode.appendEntries_spec hs hrun with ⟨rfl, -⟩ | hf
  · rw [setNode_self]
    exact h.inv
  · obtain ⟨vote, log, commit, w, hn, hvote⟩ := hf.rest
    rcases hf.outcome with ⟨-, hlog, -⟩ | ⟨hmatch, hlog, -⟩
    · refine h.move hid (h.inv.turns (List.mem_toFinset.2 hid) hlog ?_)
      rcases hvote with ⟨hlt, -⟩ | ⟨heq, hv⟩
      · exact Or.inl ⟨by rw [hn]; exact hlt, by rw [hn]; simp [server, mode]⟩
      · exact Or.inr ⟨by rw [hn]; exact heq, Or.inr (by rw [hn]; rfl), Or.inr (by rw [hn]; exact hv)⟩
    · have hle : (net.nodes id).currentTerm ≤ request.term := by
        rcases hvote with ⟨hlt, -⟩ | ⟨heq, -⟩
        · exact hlt.le
        · exact heq.ge
      refine h.move hid (h.inv.accepts hsend hle hmatch (by rw [hn]; rfl) ?_ (by rw [hn]; rfl) hlog)
      rcases hvote with ⟨hlt, -⟩ | ⟨-, hv⟩
      · exact Or.inl hlt
      · exact Or.inr (by rw [hn]; exact hv)

theorem Steady.advanceCommit (h : Steady ids net g) (hid : id ∈ ids) (replicated : List ℕ) :
    Advances ids net (net.setNode id ((net.nodes id).advanceCommit replicated)) id g := by
  refine advances_node (.refl g) ?_
  obtain hsame | ⟨k, -, -, hcommit, -⟩ := (net.nodes id).advanceCommit_spec replicated
  · rw [hsame, setNode_self]
    exact h.inv
  · rw [hcommit]
    exact h.move hid (h.inv.turns (List.mem_toFinset.2 hid) rfl (Or.inr ⟨rfl, Or.inl rfl, Or.inr rfl⟩))

theorem Steady.takeApplied (h : Steady ids net g) (hid : id ∈ ids) {entries : List Entry}
    (hrun : (net.nodes id).takeApplied = .ok (entries, n)) : Advances ids net (net.setNode id n) id g := by
  refine advances_node (.refl g) ?_
  rw [RaftNode.takeApplied, Res.bind_eq_ok] at hrun
  obtain ⟨_, -, hn⟩ := hrun
  cases hn
  exact h.move hid (h.inv.turns (List.mem_toFinset.2 hid) rfl (Or.inr ⟨rfl, Or.inl rfl, Or.inr rfl⟩))

/-- **One event.** -/
theorem Steady.advances (hnodup : ids.Nodup) (h : Steady ids net g) (hstep : NetStep ids net event net') :
    event.node ∈ ids ∧ Advances ids net net' event.node g := by
  cases hstep with
  | startElection hid hrun => exact ⟨hid, h.startElection hid hrun⟩
  | requestVote hid _ _ hrun => exact ⟨hid, h.requestVote hid hrun⟩
  | observeTerm hid hrun => exact ⟨hid, h.observeTerm hid hrun⟩
  | becomeLeader hid hrole hreq hvotes => exact ⟨hid, h.becomeLeader hnodup hid hrole hreq hvotes⟩
  | appendAsLeader hid hrun => exact ⟨hid, h.appendAsLeader hid hrun⟩
  | send hid hfollower hne hrole hprev hterm => exact ⟨hid, h.send hid hfollower hne hrole hprev hterm⟩
  | appendEntries hmem hrun =>
    have hid := (h.inv.send _ _ ⟨_, hmem, rfl⟩).mem
    exact ⟨List.mem_toFinset.1 hid, h.appendEntries hmem hrun⟩
  | advanceCommit hid _ => exact ⟨hid, h.advanceCommit hid _⟩
  | takeApplied hid hrun => exact ⟨hid, h.takeApplied hid hrun⟩

/-- An event that returns no I/O error writes the state. -/
theorem Steady.saves (h : Steady ids net g) (hid : event.node ∈ ids) (hstep : NetStep ids net event net')
    (hio : ∀ call, event.call = some call → ∀ e n, call.act.run (net.nodes event.node) = (.error e, n) →
      call.Refused (net.nodes event.node)) :
    Stores (net'.nodes event.node).wal (net'.nodes event.node).state := by
  obtain ⟨-, hs⟩ := h.node _ hid
  rcases hcall : event.call with _ | call
  · obtain ⟨-, hstate, hwal⟩ := hstep.uncalled hcall
    rw [hstate, hwal]
    exact hs
  · obtain ⟨r, hrun⟩ := hstep.called hcall
    have hspec := RaftNode.call_spec hs call hrun
    rcases hspec.saved.stores hs with hs' | ⟨hw, hsame | ⟨e, rfl⟩⟩
    · exact hs'
    · rw [hw, hsame]
      exact hs
    · rw [hspec.refused (hio call hcall e _ hrun)]
      exact hs

/-- What a crash in the middle of an event leaves: the state before the event, or the one after it. -/
theorem Steady.cut (h : Steady ids net g) (hid : event.node ∈ ids) (hstep : NetStep ids net event net')
    {cut : Bytes} (hlo : (net.nodes event.node).wal <+: cut) (hhi : cut <+: (net'.nodes event.node).wal) :
    Holds (some cut) (net.nodes event.node).state ∨ Holds (some cut) (net'.nodes event.node).state := by
  obtain ⟨-, hs⟩ := h.node _ hid
  rcases hcall : event.call with _ | call
  · obtain ⟨-, -, hwal⟩ := hstep.uncalled hcall
    rw [hwal] at hhi
    rw [hhi.eq_of_length (le_antisymm hhi.length_le hlo.length_le)]
    exact Or.inl hs.holds
  · obtain ⟨r, hrun⟩ := hstep.called hcall
    exact (RaftNode.call_spec hs call hrun).saved.cut hs hlo hhi

/-- An event only appends to the log file. -/
theorem Steady.grows (h : Steady ids net g) (hid : event.node ∈ ids) (hstep : NetStep ids net event net') :
    (net.nodes event.node).wal <+: (net'.nodes event.node).wal := by
  obtain ⟨-, hs⟩ := h.node _ hid
  rcases hcall : event.call with _ | call
  · rw [(hstep.uncalled hcall).2.2]
  · obtain ⟨r, hrun⟩ := hstep.called hcall
    rcases (RaftNode.call_spec hs call hrun).saved with ⟨p, -, -, hw⟩ | ⟨hw, -⟩
    · rw [hw]
      exact List.prefix_append _ _
    · rw [hw]

/-- An event leaves a node that has its id, if it has written its state. -/
theorem Steady.node_step (h : Steady ids net g) (hid : event.node ∈ ids) (hstep : NetStep ids net event net')
    (hstored : Stores (net'.nodes event.node).wal (net'.nodes event.node).state) :
    ∀ id ∈ ids, (net'.nodes id).id = id ∧ Stores (net'.nodes id).wal (net'.nodes id).state := by
  intro id hmem
  by_cases hne : id = event.node
  · subst hne
    refine ⟨?_, hstored⟩
    obtain ⟨hself, hs⟩ := h.node _ hid
    rcases hcall : event.call with _ | call
    · rw [(hstep.uncalled hcall).1, hself]
    · obtain ⟨r, hrun⟩ := hstep.called hcall
      rw [call.id_eq hs hrun, hself]
  · rw [hstep.nodes_eq, Function.update_of_ne hne]
    exact h.node id hmem

/-- **A step.** -/
theorem Steady.goes (hnodup : ids.Nodup) (h : Steady ids net g) (hstep : NetStep ids net event net')
    (hio : ∀ call, event.call = some call → ∀ e n, call.act.run (net.nodes event.node) = (.error e, n) →
      call.Refused (net.nodes event.node)) : ∃ g', g.Later g' ∧ Steady ids net' g' := by
  obtain ⟨hid, g', hg, -, hinv⟩ := h.advances hnodup hstep
  exact ⟨g', hg, hinv, h.node_step hid hstep (h.saves hid hstep hio)⟩

/-- **A crash.** -/
theorem Steady.crash (hnodup : ids.Nodup) (h : Steady ids net g) (hstep : NetStep ids net event net')
    {cut : Bytes} {seed : U64} (hlo : (net.nodes event.node).wal <+: cut)
    (hhi : cut <+: (net'.nodes event.node).wal) (hopen : RaftNode.openNode event.node (some cut) seed = .ok n) :
    ∃ g', g.Later g' ∧ Steady ids (net.setNode event.node n) g' := by
  obtain ⟨hid, g', hg, hmoved, -⟩ := h.advances hnodup hstep
  have hnode : ∀ id ∈ ids, ((net.setNode event.node n).nodes id).id = id ∧
      Stores ((net.setNode event.node n).nodes id).wal ((net.setNode event.node n).nodes id).state := by
    intro id hmem
    by_cases hne : id = event.node
    · subst hne
      rw [nodes_setNode]
      obtain ⟨_, _, _, _, _, _, _, hself⟩ := RaftNode.openNode_ok hopen
      exact ⟨hself, RaftNode.openNode_stored hopen⟩
    · rw [show (net.setNode event.node n).nodes id = net.nodes id from Function.update_of_ne hne _ _]
      exact h.node id hmem
  have hrole : n.role = .follower := RaftNode.openNode_role hopen
  have hheld := holds_of_open hopen
  have hmem := List.mem_toFinset.2 hid
  rcases h.cut hid hstep hlo hhi with hcut | hcut
  · obtain hstate := hheld.unique hcut
    refine ⟨g, .refl g, ?_, hnode⟩
    rw [view_setNode]
    refine h.inv.rests hmem ?_ ?_ ?_ (by rw [server, hrole]; rfl)
    · exact congrArg PersistentState.currentTerm hstate
    · exact congrArg PersistentState.votedFor hstate
    · exact congrArg PersistentState.log hstate
  · obtain hstate := hheld.unique hcut
    have hself : (net.setNode event.node (net'.nodes event.node)).view.server event.node =
        server (net'.nodes event.node) := congrArg server (nodes_setNode net event.node _)
    refine ⟨g', hg, ?_, hnode⟩
    rw [← setNode_twice net event.node (net'.nodes event.node) n, view_setNode]
    refine hmoved.rests hmem ?_ ?_ ?_ (by rw [server, hrole]; rfl)
    · rw [hself]
      exact congrArg PersistentState.currentTerm hstate
    · rw [hself]
      exact congrArg PersistentState.votedFor hstate
    · rw [hself]
      exact congrArg PersistentState.log hstate

end Steps

/-! ## Runs -/

/-- What a history says of a state of the past. -/
structure Past (ids : List U64) (g : Ghost U64 U64 Entry) (net : Network) : Prop where
  log : ∀ id ∈ ids, LogOk Entry.term g (net.nodes id).currentTerm (net.nodes id).log
  leads : ∀ id ∈ ids, (net.nodes id).role = .leader →
    g.elected (net.nodes id).currentTerm = some id ∧
      (net.nodes id).log <+: g.ledger (net.nodes id).currentTerm

section Runs
variable {ids : List U64} {net net' : Network} {g g' : Ghost U64 U64 Entry} {steps : List (Network × CrashEvent)}
  {event : CrashEvent}

theorem Past.later (h : Past ids g net) (hg : g.Later g') : Past ids g' net := by
  refine ⟨fun id hid => (h.log id hid).later hg, fun id hid hrole => ?_⟩
  obtain ⟨h1, h2⟩ := h.leads id hid hrole
  obtain ⟨h3, h4⟩ := hg.elected _ _ h1
  exact ⟨h3, h2.trans h4⟩

theorem Steady.leads (h : Steady ids net g) {id : U64} (hid : id ∈ ids) (hrole : (net.nodes id).role = .leader) :
    g.elected (net.nodes id).currentTerm = some id ∧
      (net.nodes id).log = g.ledger (net.nodes id).currentTerm :=
  h.inv.leads id (List.mem_toFinset.2 hid) (show mode (net.nodes id).role = .leads by rw [hrole]; rfl)

theorem Steady.past (h : Steady ids net g) : Past ids g net := by
  refine ⟨fun id hid => h.inv.log id (List.mem_toFinset.2 hid), fun id hid hrole => ?_⟩
  obtain ⟨h1, h2⟩ := h.leads hid hrole
  exact ⟨h1, h2 ▸ List.prefix_refl _⟩

/-- The leader of a term now is the one of the past, and it still has the entries that it had. -/
theorem Past.continues {before : Network} (h : Past ids g before) (hnow : Steady ids net g) :
    Continues ids before net := by
  intro p hp q hq hlead hlead' hterm
  obtain ⟨h1, h2⟩ := h.leads p hp hlead
  obtain ⟨h3, h4⟩ := hnow.leads hq hlead'
  rw [hterm] at h1 h2
  exact ⟨Option.some.inj (h1.symm.trans h3), h4 ▸ h2⟩

/-- **One step.** -/
theorem Steady.step (hnodup : ids.Nodup) (h : Steady ids net g) (hstep : CrashStep ids net event net')
    (hio : AllSaved ((net, event) :: steps)) : ∃ g', g.Later g' ∧ Steady ids net' g' := by
  cases hstep with
  | event hstep => exact h.goes hnodup hstep fun call hcall => hio _ _ List.mem_cons_self call hcall
  | crash cut hstep hlo hhi hopen => exact h.crash hnodup hstep hlo hhi hopen

theorem steady_start (h : Fresh ids net) : Steady ids net ⟨fun _ => none, fun _ => [], ∅, ∅⟩ := by
  obtain ⟨hnodes, h1, h2, h3, -⟩ := h
  have hnew : ∀ id ∈ ids, ∃ timeout, net.nodes id =
      { id := id, wal := [], currentTerm := 0, votedFor := none, log := [], electionTimeoutMs := timeout } := by
    intro id hid
    obtain ⟨seed, hopen⟩ := hnodes id hid
    obtain ⟨timeout, hopen'⟩ := RaftNode.openNode_stores id seed
      (show Stores ((none : Option Bytes).getD []) {} from stores_nil)
    rw [hopen] at hopen'
    exact ⟨timeout, Except.ok.inj hopen'⟩
  have hserver : ∀ id ∈ ids.toFinset, ∃ mode, net.view.server id = ⟨0, none, [], mode, 0⟩ ∧ mode ≠ .leads := by
    intro id hid
    obtain ⟨timeout, hn⟩ := hnew id (List.mem_toFinset.1 hid)
    refine ⟨.follows, ?_, by simp⟩
    show server (net.nodes id) = _
    rw [hn]
    rfl
  refine ⟨logInv_start hserver ?_ ?_, fun id hid => ?_⟩
  · ext x
    simp [view, Cast, h1, h2]
  · ext x
    simp [view, h3]
  · obtain ⟨timeout, hn⟩ := hnew id hid
    rw [hn]
    exact ⟨rfl, stores_nil⟩

theorem steady_run (hnodup : ids.Nodup) {net₀ : Network} (hfresh : Fresh ids net₀)
    (hrun : Trace (CrashStep ids) net₀ steps net) (hio : AllSaved steps) :
    ∃ g, Steady ids net g ∧ (∀ m ∈ states steps net, Past ids g m) ∧
      (states steps net).Pairwise fun net before => Continues ids before net := by
  induction hrun with
  | refl =>
    have h := steady_start hfresh
    refine ⟨_, h, fun m hm => ?_, List.pairwise_singleton _ _⟩
    rw [List.mem_singleton.1 hm]
    exact h.past
  | step _ hstep ih =>
    obtain ⟨g, h, hpast, hcont⟩ := ih fun net event hmem => hio net event (List.mem_cons_of_mem _ hmem)
    obtain ⟨g', hg, h'⟩ := h.step hnodup hstep hio
    refine ⟨g', h', fun m hm => ?_, List.pairwise_cons.2 ⟨fun m hm => ?_, hcont⟩⟩
    · rcases List.mem_cons.1 hm with rfl | hm
      · exact h'.past
      · exact (hpast m hm).later hg
    · exact ((hpast m hm).later hg).continues h'

end Runs

/-- **One leader for a term, which only appends**: in every run of nodes that crash and start again,
    on a network that delays, repeats, reorders and loses messages, two nodes that lead the same term,
    at the same time or not, are the same node, and its log of the earlier time is a prefix of the
    later one. -/
theorem crash_one_leader {ids : List U64} (hnodup : ids.Nodup) {net₀ net : Network}
    {steps : List (Network × CrashEvent)} (hfresh : Fresh ids net₀)
    (hrun : Trace (CrashStep ids) net₀ steps net) (hio : AllSaved steps) :
    (∀ m ∈ states steps net, Continues ids m m) ∧
      (states steps net).Pairwise fun net before => Continues ids before net := by
  obtain ⟨g, -, hpast, hcont⟩ := steady_run hnodup hfresh hrun hio
  refine ⟨fun m hm p hp q hq hlead hlead' hterm => ?_, hcont⟩
  have h1 := ((hpast m hm).leads p hp hlead).1
  have h2 := ((hpast m hm).leads q hq hlead').1
  rw [hterm, h2] at h1
  obtain rfl := Option.some.inj h1
  exact ⟨rfl, List.prefix_refl _⟩

/-- **Logs match**: in every such run, if two logs of nodes, at the same time or not, have entries of
    the same term at the same index, they are the same up to this index. -/
theorem crash_logs_match {ids : List U64} (hnodup : ids.Nodup) {net₀ net : Network}
    {steps : List (Network × CrashEvent)} (hfresh : Fresh ids net₀)
    (hrun : Trace (CrashStep ids) net₀ steps net) (hio : AllSaved steps) :
    ∀ m ∈ states steps net, ∀ m' ∈ states steps net, ∀ p ∈ ids, ∀ q ∈ ids, ∀ i e e',
      (m.nodes p).log[i]? = some e → (m'.nodes q).log[i]? = some e' → e.term = e'.term →
      (m.nodes p).log.take (i + 1) = (m'.nodes q).log.take (i + 1) := by
  obtain ⟨g, -, hpast, -⟩ := steady_run hnodup hfresh hrun hio
  intro m hm m' hm' p hp q hq i e e' hi hi' hterm
  exact ((hpast m hm).log p hp).known.matching ((hpast m' hm').log q hq).known hi hi' hterm

/-- The call of the event returns no error. -/
def returns (net : Network) (event : NetEvent) : Bool :=
  (event.call.map fun call => (call.act.run (net.nodes event.node)).1.isOk).getD true

theorem refused_of_returns {net : Network} {event : NetEvent} (h : returns net event = true) :
    ∀ call, event.call = some call → ∀ e n, call.act.run (net.nodes event.node) = (.error e, n) →
      call.Refused (net.nodes event.node) := by
  intro call hcall e n hrun
  rw [returns, hcall, Option.map_some, hrun] at h
  cases h

/-- A run goes on with an event that returns no error. -/
theorem ran_event {ids : List U64} {net₀ net net' : Network} {steps : List (Network × CrashEvent)}
    {event : NetEvent} (h : Trace (CrashStep ids) net₀ steps net ∧ AllSaved steps)
    (hstep : NetStep ids net event net') (hreturns : returns net event = true) :
    Trace (CrashStep ids) net₀ ((net, .event event) :: steps) net' ∧ AllSaved ((net, .event event) :: steps) := by
  refine ⟨h.1.step (.event hstep), fun m event' hmem call hcall => ?_⟩
  rcases List.mem_cons.1 hmem with heq | hmem
  · cases heq
    exact refused_of_returns hreturns call hcall
  · exact h.2 m event' hmem call hcall

/-- A run goes on with a crash at the end of such an event: the node is opened again with its new state. -/
theorem ran_crash {ids : List U64} (hnodup : ids.Nodup) {net₀ net net' : Network}
    {steps : List (Network × CrashEvent)} {event : NetEvent} (hfresh : Fresh ids net₀)
    (h : Trace (CrashStep ids) net₀ steps net ∧ AllSaved steps) (hstep : NetStep ids net event net')
    (hreturns : returns net event = true) :
    ∃ n, (Trace (CrashStep ids) net₀ ((net, .crash event) :: steps) (net.setNode event.node n) ∧
      AllSaved ((net, .crash event) :: steps)) ∧ n.state = (net'.nodes event.node).state ∧ n.role = .follower := by
  obtain ⟨g, hsteady, -⟩ := steady_run hnodup hfresh h.1 h.2
  obtain ⟨hid, -⟩ := hsteady.advances hnodup hstep
  have hstored := hsteady.saves hid hstep (refused_of_returns hreturns)
  obtain ⟨n, hopen⟩ := hstored.holds.open event.node 0
  refine ⟨n, ⟨h.1.step (.crash _ hstep (hsteady.grows hid hstep) (List.prefix_refl _) hopen), fun m event' hmem => ?_⟩,
    (holds_of_open hopen).unique hstored.holds, RaftNode.openNode_role hopen⟩
  rcases List.mem_cons.1 hmem with heq | hmem
  · cases heq
  · exact h.2 m event' hmem

/-- Node 1 leads term 1 and appends an entry; node 2 crashes while it takes the entry, and is opened again
    with it. -/
theorem crash_run : ∃ elected net, ∃ steps : List (Network × CrashEvent),
    Trace (CrashStep [1, 2, 3]) newNodes steps net ∧ AllSaved steps ∧ elected ∈ steps.map Prod.fst ∧
    (∃ before, (before, .crash (.appendEntries 2 ⟨1, 1, 0, 0, [entry 97], 0⟩)) ∈ steps) ∧
    (elected.nodes 1).role = .leader ∧ (elected.nodes 1).currentTerm = 1 ∧ (elected.nodes 1).log = [] ∧
    (net.nodes 1).role = .leader ∧ (net.nodes 1).currentTerm = 1 ∧ (net.nodes 1).log = [entry 97] ∧
    (net.nodes 2).role = .follower ∧ (net.nodes 2).log = [entry 97] := by
  have hrun : Trace (CrashStep [1, 2, 3]) newNodes [] newNodes ∧ AllSaved [] :=
    ⟨.refl _, fun _ _ hmem => absurd hmem List.not_mem_nil⟩
  have hrun := ran_event hrun (@NetStep.startElection _ _ 1 _ _ (by decide) Prod.mk.eta.symm) (by decide +kernel)
  have hrun := ran_event hrun (@NetStep.requestVote _ _ 2 ⟨1, 1, 0, 0⟩ _ _ (by decide) (by decide +kernel) (by decide)
    Prod.mk.eta.symm) (by decide +kernel)
  have hrun := ran_event hrun (@NetStep.becomeLeader _ _ 1 (by decide) (by decide +kernel) (by decide +kernel)
    (by decide +kernel)) (by decide +kernel)
  have hrun := ran_event hrun (@NetStep.appendAsLeader _ _ 1 [97] _ _ (by decide) Prod.mk.eta.symm) (by decide +kernel)
  have hrun := ran_event hrun (@NetStep.send _ _ 1 2 0 0 (by decide) (by decide) (by decide) (by decide +kernel)
    (by decide +kernel) (by decide +kernel)) (by decide +kernel)
  obtain ⟨n, hcrash, hstate, hrole⟩ := ran_crash (by decide) (newNodes_fresh _) hrun
    (@NetStep.appendEntries _ _ 2 ⟨1, 1, 0, 0, [entry 97], 0⟩ _ _ (by decide +kernel) Prod.mk.eta.symm)
    (by decide +kernel)
  have hopened : ∀ net : Network, (net.setNode 2 n).nodes 2 = n := fun net => nodes_setNode net 2 n
  have hother : ∀ net : Network, (net.setNode 2 n).nodes 1 = net.nodes 1 := fun net =>
    Function.update_of_ne (by decide : (1 : U64) ≠ 2) n net.nodes
  refine ⟨_, _, _, hcrash.1, hcrash.2, List.mem_cons_of_mem _ (List.mem_cons_of_mem _ List.mem_cons_self),
    ⟨_, List.mem_cons_self⟩, by decide +kernel, by decide +kernel, by decide +kernel, ?_, ?_, ?_, ?_, ?_⟩
  · exact (congrArg RaftNode.role (hother _)).trans (by decide +kernel)
  · exact (congrArg RaftNode.currentTerm (hother _)).trans (by decide +kernel)
  · exact (congrArg RaftNode.log (hother _)).trans (by decide +kernel)
  · exact (congrArg RaftNode.role (hopened _)).trans hrole
  · exact (congrArg RaftNode.log (hopened _)).trans ((congrArg PersistentState.log hstate).trans (by decide +kernel))

/-- Node 1 keeps what it has appended since its election. -/
theorem crash_one_leader_run : ∃ elected net, ∃ steps : List (Network × CrashEvent),
    Trace (CrashStep [1, 2, 3]) newNodes steps net ∧
    (∃ before, (before, .crash (.appendEntries 2 ⟨1, 1, 0, 0, [entry 97], 0⟩)) ∈ steps) ∧
    (elected.nodes 1).role = .leader ∧ (elected.nodes 1).log = [] ∧ (net.nodes 1).role = .leader ∧
    (net.nodes 1).log = [entry 97] ∧ Continues [1, 2, 3] elected net := by
  obtain ⟨elected, net, steps, hrun, hio, hmem, hcrash, hlead, -, hlog, hlead', -, hlog', -⟩ := crash_run
  refine ⟨elected, net, steps, hrun, hcrash, hlead, hlog, hlead', hlog', ?_⟩
  exact List.rel_of_pairwise_cons (crash_one_leader (by decide) (newNodes_fresh _) hrun hio).2 hmem

/-- The logs of nodes 1 and 2 match. -/
theorem crash_logs_match_run : ∃ net, ∃ steps : List (Network × CrashEvent),
    Trace (CrashStep [1, 2, 3]) newNodes steps net ∧
    (∃ before, (before, .crash (.appendEntries 2 ⟨1, 1, 0, 0, [entry 97], 0⟩)) ∈ steps) ∧
    (net.nodes 1).log[0]? = some (entry 97) ∧ (net.nodes 2).log[0]? = some (entry 97) ∧
    (net.nodes 1).log.take 1 = (net.nodes 2).log.take 1 := by
  obtain ⟨elected, net, steps, hrun, hio, -, hcrash, -, -, -, -, -, hlog, -, hlog'⟩ := crash_run
  have hfirst : (net.nodes 1).log[0]? = some (entry 97) := by rw [hlog]; rfl
  have hsecond : (net.nodes 2).log[0]? = some (entry 97) := by rw [hlog']; rfl
  refine ⟨net, steps, hrun, hcrash, hfirst, hsecond, ?_⟩
  exact crash_logs_match (by decide) (newNodes_fresh _) hrun hio net List.mem_cons_self net List.mem_cons_self
    1 (by decide) 2 (by decide) 0 _ _ hfirst hsecond rfl

end Network

end Raft

end NutDb
