/-
  The simulated Raft cluster (`RaftCluster` of `src/raft/mod.rs`).

  Messages are delivered by calling the handlers of the nodes.  An operation
  that fails keeps what it has done to the nodes before.
-/
import NutDb.Raft.Node
import Mathlib.Data.List.Sort
import Mathlib.Data.List.MinMax

namespace NutDb

open Lib

namespace Raft

/-- `RaftCluster`, with the blocked links of its `InMemoryTransport`.  The keys of the map of the
    nodes are `ids`, in order; `nodes` and `applied` are read at these only. -/
structure RaftCluster where
  ids : List U64
  nodes : U64 → RaftNode
  blocked : List (U64 × U64) := []
  stopped : List U64 := []
  applied : U64 → List Bytes := fun _ => []

namespace RaftCluster

/-! ## Opening -/

/-- The cluster without nodes. -/
def empty : RaftCluster where
  ids := []
  nodes := fun id => { id := id, wal := [], currentTerm := 0, votedFor := none, log := [], electionTimeoutMs := 0 }

/-- Insertion of a node under its id. -/
def insertNode (c : RaftCluster) (id : U64) (n : RaftNode) : RaftCluster :=
  { c with
    ids := if id ∈ c.ids then c.ids else c.ids.orderedInsert (· ≤ ·) id
    nodes := Function.update c.nodes id n }

/-- One round of the loop of `open`; an id that is listed twice is opened twice. -/
def openNext (files : U64 → Option Bytes) (seed : U64) (c : RaftCluster) (id : U64) : Res RaftCluster := do
  let file := if id ∈ c.ids then some (c.nodes id).wal else files id
  let n ← RaftNode.openNode id file seed
  return c.insertNode id n

/-- `RaftCluster::open`, on the log files in a directory. -/
def openCluster (ids : List U64) (files : U64 → Option Bytes) (seed : U64) : Res RaftCluster :=
  ids.foldlM (openNext files seed) empty

/-- The log files of a cluster. -/
def files (c : RaftCluster) (id : U64) : Option Bytes :=
  if id ∈ c.ids then some (c.nodes id).wal else none

/-- Opening the cluster again from its files. -/
def reopen (c : RaftCluster) (seed : U64) : Res RaftCluster := openCluster c.ids c.files seed

/-! ## Operations -/

/-- `InMemoryTransport::reachable`. -/
def reachable (c : RaftCluster) (source target : U64) : Bool := decide ((source, target) ∉ c.blocked)

/-- Run a handler on a node. -/
def onNode {α : Type} (id : U64) (x : Act RaftNode α) : Act RaftCluster α := fun c =>
  ((x.run (c.nodes id)).1, { c with nodes := Function.update c.nodes id (x.run (c.nodes id)).2 })

/-- A peer that an election passes over. -/
def passedOver (c : RaftCluster) (candidate peer : U64) : Bool :=
  decide (peer = candidate) || decide (peer ∈ c.stopped) || !c.reachable candidate peer ||
    !c.reachable peer candidate

/-- The loop of `elect` over the peers; no number of votes if a peer was ahead. -/
def collectVotes (candidate : U64) (request : RequestVote) : List U64 → ℕ → Act RaftCluster (Option ℕ)
  | [], votes => return some votes
  | peer :: peers, votes => do
    let c ← Act.gets fun c => c
    if c.passedOver candidate peer then collectVotes candidate request peers votes
    else do
      let response ← onNode peer (RaftNode.requestVote request)
      if response.term > request.term then do
        onNode candidate (RaftNode.observeTerm response.term)
        return none
      else collectVotes candidate request peers (if response.granted then votes + 1 else votes)

/-- `elect`. -/
def elect (candidate : U64) : Act RaftCluster Bool := do
  let c ← Act.gets fun c => c
  if candidate ∈ c.stopped then return false
  else if candidate ∉ c.ids then Act.fail .invalidInput "raft: unknown candidate"
  else do
    let request ← onNode candidate RaftNode.startElection
    let votes ← collectVotes candidate request c.ids 1
    match votes with
    | none => return false
    | some votes =>
      if votes * 2 > c.ids.length then do
        onNode candidate (Act.modify RaftNode.becomeLeader)
        return true
      else return false

/-- `elect_by_timeout`: of the nodes with the least timeout, the first one stands. -/
def electByTimeout : Act RaftCluster (Option U64) := do
  let c ← Act.gets fun c => c
  match (c.ids.filter fun id => decide (id ∉ c.stopped)).argmin fun id => (c.nodes id).electionTimeoutMs with
  | none => return none
  | some id => do
    let won ← elect id
    return if won then some id else none

/-- The term of the entry before an append request. -/
def prevLogTerm (leaderLog : List Entry) (prev : ℕ) : Res U64 :=
  if prev = 0 then .ok 0 else do
    let entry ← Res.get leaderLog (prev - 1)
    return entry.term

/-- One round of the inner loop of `replicate_existing`: the index that matches, if the follower
    has taken the entries. -/
def tryAppend (leader follower term : U64) (leaderLog : List Entry) (leaderCommit prev : ℕ) :
    Act RaftCluster (Option ℕ) := do
  let prevTerm ← Act.lift (prevLogTerm leaderLog prev)
  let response ← onNode follower
    (RaftNode.appendEntries ⟨term, leader, prev, prevTerm, leaderLog.drop prev, leaderCommit⟩)
  if response.term > term then do
    onNode leader (RaftNode.observeTerm response.term)
    Act.fail .wouldBlock "raft: leader observed a higher term"
  else return if response.success then some response.matchIndex else none

/-- The inner loop of `replicate_existing`, from the index `prev` down. -/
def matchFollower (leader follower term : U64) (leaderLog : List Entry) (leaderCommit : ℕ) :
    ℕ → Act RaftCluster ℕ
  | 0 => do
    let matched ← tryAppend leader follower term leaderLog leaderCommit 0
    return matched.getD 0
  | prev + 1 => do
    let matched ← tryAppend leader follower term leaderLog leaderCommit (prev + 1)
    match matched with
    | some index => return index
    | none => matchFollower leader follower term leaderLog leaderCommit prev

/-- A follower that a leader cannot reach. -/
def cutOff (c : RaftCluster) (leader follower : U64) : Bool :=
  decide (follower ∈ c.stopped) || !c.reachable leader follower

/-- The first loop of `replicate_existing`: the index that matches for each follower. -/
def matchFollowers (leader term : U64) (leaderLog : List Entry) (leaderCommit : ℕ) :
    List U64 → Act RaftCluster (List ℕ)
  | [] => return []
  | follower :: followers => do
    let c ← Act.gets fun c => c
    if follower = leader then matchFollowers leader term leaderLog leaderCommit followers
    else do
      let index ← if c.cutOff leader follower then pure 0
        else matchFollower leader follower term leaderLog leaderCommit leaderLog.length
      let matched ← matchFollowers leader term leaderLog leaderCommit followers
      return index :: matched

/-- The second loop of `replicate_existing`: publish the commit index. -/
def publish (leader term : U64) (leaderLog : List Entry) (commit : ℕ) : List U64 → Act RaftCluster Unit
  | [] => return ()
  | follower :: followers => do
    let c ← Act.gets fun c => c
    if follower = leader ∨ c.cutOff leader follower = true then
      publish leader term leaderLog commit followers
    else do
      let followerLen := (c.nodes follower).lastLogIndex
      let prevTerm ← Act.lift (prevLogTerm leaderLog followerLen)
      let _ ← onNode follower (RaftNode.appendEntries ⟨term, leader, followerLen, prevTerm, [], commit⟩)
      publish leader term leaderLog commit followers

/-- One round of `apply_all`. -/
def applyNode (id : U64) : Act RaftCluster Unit := do
  let c ← Act.gets fun c => c
  let (commands, n) ← Act.lift (c.nodes id).takeApplied
  Act.modify fun c => { c with
    nodes := Function.update c.nodes id n
    applied := Function.update c.applied id (c.applied id ++ commands.map Entry.command) }

/-- `apply_all`. -/
def applyAll : List U64 → Act RaftCluster Unit
  | [] => return ()
  | id :: ids => do
    applyNode id
    applyAll ids

/-- `replicate_existing`. -/
def replicateExisting (leader : U64) : Act RaftCluster ℕ := do
  let c ← Act.gets fun c => c
  let term := (c.nodes leader).currentTerm
  let leaderLog := (c.nodes leader).log
  let matched ← matchFollowers leader term leaderLog (c.nodes leader).commitIndex c.ids
  onNode leader (Act.modify fun n => n.advanceCommit matched)
  let commit ← Act.gets fun c => (c.nodes leader).commitIndex
  publish leader term leaderLog commit c.ids
  applyAll c.ids
  return commit

/-- `replicate`. -/
def replicate (leader : U64) (command : Bytes) : Act RaftCluster ℕ := do
  let c ← Act.gets fun c => c
  if leader ∈ c.stopped then Act.fail .notConnected "raft: node stopped"
  else if leader ∉ c.ids then Act.fail .invalidInput "raft: unknown leader"
  else do
    let index ← onNode leader (RaftNode.appendAsLeader command)
    let _ ← replicateExisting leader
    let commit ← Act.gets fun c => (c.nodes leader).commitIndex
    if commit < index then Act.fail .wouldBlock "raft: entry did not reach a majority"
    else return index

/-- `synchronize`. -/
def synchronize (leader : U64) : Act RaftCluster Unit := do
  let _ ← replicateExisting leader
  return ()

/-- `partition`. -/
def partition (a b : U64) (c : RaftCluster) : RaftCluster :=
  { c with blocked := (b, a) :: (a, b) :: c.blocked }

/-- `isolate`. -/
def isolate (node : U64) (c : RaftCluster) : RaftCluster :=
  c.ids.foldl (fun c peer => if peer ≠ node then c.partition node peer else c) c

/-- `heal_all`. -/
def healAll (c : RaftCluster) : RaftCluster := { c with blocked := [] }

/-- `stop`. -/
def stop (node : U64) (c : RaftCluster) : RaftCluster := { c with stopped := node :: c.stopped }

/-- `start`. -/
def start (node : U64) (c : RaftCluster) : RaftCluster :=
  { c with stopped := c.stopped.filter fun id => decide (id ≠ node) }

end RaftCluster

end Raft

end NutDb
