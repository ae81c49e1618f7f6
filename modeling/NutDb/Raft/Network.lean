/-
  Raft nodes on a network that delays, repeats, reorders and loses messages.

  Elections and commits are those of the cluster: a candidate leads once a majority
  has granted its vote, and a leader commits on the success responses of its
  followers.  A response or a request that was sent may be delivered at any later
  time, any number of times or never.

  A follower cuts its log behind the entries of a request, also when these are
  an old request of the same leader (`Stale`), and so it loses entries that it has
  acknowledged.  `committed_kept` says that this is the only way to lose a committed
  entry.
-/
import NutDb.Raft.Faults
import NutDb.Raft.Cluster
import NutDb.Lib.RaftNet

namespace NutDb

open Lib Lib.Raft

namespace Raft

/-- The nodes, and the messages that were ever sent: the requests, and the responses with the node that
    gave them (and the candidate that a vote is for). -/
structure Network where
  nodes : U64 → RaftNode
  voteRequests : List RequestVote := []
  votes : List (U64 × U64 × VoteResponse) := []
  appendRequests : List (U64 × AppendEntries) := []
  appendResponses : List (U64 × AppendResponse) := []

/-- What happens in a step. -/
inductive NetEvent where
  | startElection (id : U64)
  | requestVote (id : U64) (request : RequestVote)
  | observeTerm (id term : U64)
  | becomeLeader (id : U64)
  | appendAsLeader (id : U64) (command : Bytes)
  | send (leader follower : U64) (prev : ℕ)
  | appendEntries (id : U64) (request : AppendEntries)
  | advanceCommit (id : U64) (replicated : List ℕ)
  | takeApplied (id : U64)
  deriving DecidableEq

namespace Network

/-- A node changes. -/
def setNode (net : Network) (id : U64) (n : RaftNode) : Network :=
  { net with nodes := Function.update net.nodes id n }

/-- A vote request is sent, if there is one. -/
def addVoteRequest (net : Network) (request : Option RequestVote) : Network :=
  { net with voteRequests := request.toList ++ net.voteRequests }

/-- The response of a node to the vote request of a candidate is sent. -/
def addVote (net : Network) (id candidate : U64) (response : Option VoteResponse) : Network :=
  { net with votes := (response.toList.map fun response => (id, candidate, response)) ++ net.votes }

/-- An append request is sent to a node. -/
def addAppendRequest (net : Network) (id : U64) (request : AppendEntries) : Network :=
  { net with appendRequests := (id, request) :: net.appendRequests }

/-- The response of a node to an append request is sent. -/
def addAppendResponse (net : Network) (id : U64) (response : Option AppendResponse) : Network :=
  { net with
    appendResponses := (response.toList.map fun response => (id, response)) ++ net.appendResponses }

/-- The nodes that have granted their vote to a candidate in its term, and the candidate. -/
def supporters (net : Network) (ids : List U64) (id : U64) : List U64 :=
  ids.filter fun q => decide (q = id) || net.votes.any fun vote =>
    decide (vote.1 = q) && decide (vote.2.1 = id) && vote.2.2.granted &&
      decide (vote.2.2.term = (net.nodes id).currentTerm)

/-- The request of a leader for the entries behind an index, as in `replicate_existing`. -/
def request (n : RaftNode) (prev : ℕ) (prevTerm : U64) : AppendEntries :=
  ⟨n.currentTerm, n.id, prev, prevTerm, n.log.drop prev, n.commitIndex⟩

/-- The indices that a leader has from the success responses of its followers in its term; none counts
    as 0. -/
def Replicated (net : Network) (ids : List U64) (id : U64) (replicated : List ℕ) : Prop :=
  ∃ f : U64 → ℕ, replicated = (ids.filter fun q => decide (q ≠ id)).map f ∧
    ∀ q, f q = 0 ∨ ∃ response, (q, response) ∈ net.appendResponses ∧ response.success = true ∧
      response.term = (net.nodes id).currentTerm ∧ response.matchIndex = f q

/-- The steps of the nodes `ids`. -/
inductive NetStep (ids : List U64) : Network → NetEvent → Network → Prop
  | startElection {net : Network} {id : U64} {r : Res RequestVote} {n : RaftNode} : id ∈ ids →
      RaftNode.startElection.run (net.nodes id) = (r, n) →
      NetStep ids net (.startElection id) ((net.setNode id n).addVoteRequest r.toOption)
  | requestVote {net : Network} {id : U64} {request : RequestVote} {r : Res VoteResponse} {n : RaftNode} :
      id ∈ ids → request ∈ net.voteRequests → id ≠ request.candidateId →
      (RaftNode.requestVote request).run (net.nodes id) = (r, n) →
      NetStep ids net (.requestVote id request)
        ((net.setNode id n).addVote id request.candidateId r.toOption)
  | observeTerm {net : Network} {id term : U64} {r : Res Unit} {n : RaftNode} : id ∈ ids →
      (RaftNode.observeTerm term).run (net.nodes id) = (r, n) →
      NetStep ids net (.observeTerm id term) (net.setNode id n)
  | becomeLeader {net : Network} {id : U64} : id ∈ ids → (net.nodes id).role = .candidate →
      (∃ request ∈ net.voteRequests, request.term = (net.nodes id).currentTerm ∧ request.candidateId = id) →
      (net.supporters ids id).length * 2 > ids.length →
      NetStep ids net (.becomeLeader id) (net.setNode id (net.nodes id).becomeLeader)
  | appendAsLeader {net : Network} {id : U64} {command : Bytes} {r : Res ℕ} {n : RaftNode} : id ∈ ids →
      (RaftNode.appendAsLeader command).run (net.nodes id) = (r, n) →
      NetStep ids net (.appendAsLeader id command) (net.setNode id n)
  | send {net : Network} {id follower : U64} {prev : ℕ} {prevTerm : U64} : id ∈ ids → follower ∈ ids →
      follower ≠ id → (net.nodes id).role = .leader → prev ≤ (net.nodes id).log.length →
      RaftCluster.prevLogTerm (net.nodes id).log prev = .ok prevTerm →
      NetStep ids net (.send id follower prev)
        (net.addAppendRequest follower (request (net.nodes id) prev prevTerm))
  | appendEntries {net : Network} {id : U64} {request : AppendEntries} {r : Res AppendResponse}
      {n : RaftNode} : (id, request) ∈ net.appendRequests →
      (RaftNode.appendEntries request).run (net.nodes id) = (r, n) →
      NetStep ids net (.appendEntries id request) ((net.setNode id n).addAppendResponse id r.toOption)
  | advanceCommit {net : Network} {id : U64} {replicated : List ℕ} : id ∈ ids →
      net.Replicated ids id replicated →
      NetStep ids net (.advanceCommit id replicated)
        (net.setNode id ((net.nodes id).advanceCommit replicated))
  | takeApplied {net : Network} {id : U64} {entries : List Entry} {n : RaftNode} : id ∈ ids →
      (net.nodes id).takeApplied = .ok (entries, n) →
      NetStep ids net (.takeApplied id) (net.setNode id n)

/-- The network of new nodes. -/
def Fresh (ids : List U64) (net : Network) : Prop :=
  (∀ id ∈ ids, ∃ seed, RaftNode.openNode id none seed = .ok (net.nodes id)) ∧
    net.voteRequests = [] ∧ net.votes = [] ∧ net.appendRequests = [] ∧ net.appendResponses = []

/-- A request of the current term that takes from the log what lies behind its entries. -/
def Stale (n : RaftNode) (request : AppendEntries) : Prop :=
  request.term = n.currentTerm ∧ n.Matches request ∧
    n.log.take request.prevLogIndex ++ request.entries <+: n.log ∧
    request.prevLogIndex + request.entries.length < n.log.length

/-- No stale request is delivered. -/
def Careful (steps : List (Network × NetEvent)) : Prop :=
  ∀ net id request, (net, NetEvent.appendEntries id request) ∈ steps → ¬ Stale (net.nodes id) request

end Network

end Raft

end NutDb
