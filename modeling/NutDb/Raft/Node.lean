/-
  A Raft node (`RaftNode` of `src/raft/state.rs`).

  A handler is code over the node; when it fails in `persist`, the node keeps
  what was changed in memory.  The log file of a node is synced after every
  append, so it is its content.
-/
import NutDb.Lib.Act
import NutDb.Raft.Persist

namespace NutDb

open Lib

namespace Raft

/-- `Role`. -/
inductive Role where
  | follower | candidate | leader
  deriving DecidableEq, Repr

/-- `RaftNode`. -/
structure RaftNode where
  id : U64
  wal : Bytes
  currentTerm : U64
  votedFor : Option U64
  log : List Entry
  commitIndex : ℕ := 0
  lastApplied : ℕ := 0
  role : Role := .follower
  leaderId : Option U64 := none
  electionTimeoutMs : ℕ
  deriving DecidableEq, Repr

/-- `RequestVote`. -/
structure RequestVote where
  term : U64
  candidateId : U64
  lastLogIndex : ℕ
  lastLogTerm : U64
  deriving DecidableEq, Repr

/-- `VoteResponse`. -/
structure VoteResponse where
  term : U64
  granted : Bool
  deriving DecidableEq, Repr

/-- `AppendEntries`. -/
structure AppendEntries where
  term : U64
  leaderId : U64
  prevLogIndex : ℕ
  prevLogTerm : U64
  entries : List Entry
  leaderCommit : ℕ
  deriving DecidableEq, Repr

/-- `AppendResponse`. -/
structure AppendResponse where
  term : U64
  success : Bool
  matchIndex : ℕ
  deriving DecidableEq, Repr

/-- `mix`. -/
def mix (value : UInt64) : UInt64 :=
  let value := value ^^^ (value >>> 30)
  let value := value * 0xbf58476d1ce4e5b9
  let value := value ^^^ (value >>> 27)
  let value := value * 0x94d049bb133111eb
  value ^^^ (value >>> 31)

/-- The state in a log file: that of its last record. -/
def loadState (records : List Bytes) : Res PersistentState :=
  records.foldlM (fun _ record => PersistentState.decode record) {}

namespace RaftNode

/-- `RaftNode::open`, on a log file that may be missing. -/
def openNode (id : U64) (file : Option Bytes) (seed : U64) : Res RaftNode := do
  let replay := Wal.replayPath file
  let state ← loadState replay.records
  return {
    id := id
    wal := if replay.truncated then (file.getD []).take replay.validBytes else file.getD []
    currentTerm := state.currentTerm
    votedFor := state.votedFor
    log := state.log
    electionTimeoutMs :=
      150 + (mix (UInt64.ofNat seed.val ^^^ UInt64.ofNat id.val)).toNat % 151 }

/-- `last_log_index`. -/
def lastLogIndex (n : RaftNode) : ℕ := n.log.length

/-- `last_log_term`. -/
def lastLogTerm (n : RaftNode) : U64 := (n.log.getLast?.map Entry.term).getD 0

/-- What `persist` writes. -/
def state (n : RaftNode) : PersistentState := ⟨n.currentTerm, n.votedFor, n.log⟩

/-- `persist`. -/
def persist : Act RaftNode Unit := do
  let n ← Act.gets fun n => n
  let payload ← Act.lift n.state.encode
  let record ← Act.lift (Wal.append payload)
  Act.modify fun n => { n with wal := n.wal ++ record }

/-- `if changed { self.persist()? }`. -/
def persistIf (changed : Bool) : Act RaftNode Unit := if changed then persist else pure ()

/-- `start_election`. -/
def startElection : Act RaftNode RequestVote := do
  let n ← Act.gets fun n => n
  match n.currentTerm.checkedAdd 1 with
  | none => Act.fail .invalidData "raft: term exhausted"
  | some term => do
    Act.modify fun n => { n with
      currentTerm := term
      role := .candidate
      leaderId := none
      votedFor := some n.id }
    persist
    return ⟨term, n.id, n.lastLogIndex, n.lastLogTerm⟩

/-- `become_leader`. -/
def becomeLeader (n : RaftNode) : RaftNode := { n with role := .leader, leaderId := some n.id }

/-- `observe_term`. -/
def observeTerm (term : U64) : Act RaftNode Unit := do
  let n ← Act.gets fun n => n
  if n.currentTerm < term then do
    Act.modify fun n => { n with
      currentTerm := term
      votedFor := none
      role := .follower
      leaderId := none }
    persist
  else pure ()

/-- A node that steps down for the term of a vote request. -/
def stepDown (n : RaftNode) (term : U64) : RaftNode :=
  if n.currentTerm < term then
    { n with currentTerm := term, votedFor := none, role := .follower, leaderId := none }
  else n

/-- `up_to_date`: the pairs of last term and last index are compared lexicographically. -/
def upToDate (n : RaftNode) (request : RequestVote) : Bool :=
  decide (n.lastLogTerm < request.lastLogTerm) ||
    (decide (n.lastLogTerm = request.lastLogTerm) && decide (n.lastLogIndex ≤ request.lastLogIndex))

/-- Whether a node that has stepped down for a request grants its vote. -/
def grants (n : RaftNode) (request : RequestVote) : Bool :=
  (n.votedFor.isNone || decide (n.votedFor = some request.candidateId)) && n.upToDate request

/-- Whether the vote that is granted is a new one. -/
def newVote (n : RaftNode) (request : RequestVote) : Bool :=
  n.grants request && decide (n.votedFor ≠ some request.candidateId)

/-- A node that has stepped down for a request casts its vote. -/
def castVote (n : RaftNode) (request : RequestVote) : RaftNode :=
  if n.newVote request then { n with votedFor := some request.candidateId } else n

/-- `request_vote`. -/
def requestVote (request : RequestVote) : Act RaftNode VoteResponse := do
  let n ← Act.gets fun n => n
  if request.term < n.currentTerm then return ⟨n.currentTerm, false⟩
  else do
    let n₁ := n.stepDown request.term
    Act.modify fun _ => n₁.castVote request
    persistIf (decide (n.currentTerm < request.term) || n₁.newVote request)
    return ⟨n₁.currentTerm, n₁.grants request⟩

/-- The loop of `append_entries` over the incoming entries, from index `index` on. -/
def mergeEntries : List Entry → ℕ → Bool → List Entry → List Entry × Bool
  | log, index, changed, [] =>
    if index < log.length then (log.take index, true) else (log, changed)
  | log, index, changed, incoming :: entries =>
    if h : index < log.length then
      if log.get ⟨index, h⟩ ≠ incoming then
        mergeEntries (log.take index ++ [incoming]) (index + 1) true entries
      else mergeEntries log (index + 1) changed entries
    else mergeEntries (log ++ [incoming]) (index + 1) true entries

/-- A node that follows the leader of a request. -/
def follow (n : RaftNode) (request : AppendEntries) : RaftNode :=
  let n := if n.currentTerm < request.term then
    { n with currentTerm := request.term, votedFor := none } else n
  { n with role := .follower, leaderId := some request.leaderId }

/-- The log has no entry that matches the one before the request. -/
def mismatched (n : RaftNode) (request : AppendEntries) : Res Bool :=
  if request.prevLogIndex > n.lastLogIndex then .ok true
  else if request.prevLogIndex > 0 then do
    let entry ← Res.get n.log (request.prevLogIndex - 1)
    return decide (entry.term ≠ request.prevLogTerm)
  else .ok false

/-- `append_entries`. -/
def appendEntries (request : AppendEntries) : Act RaftNode AppendResponse := do
  let n ← Act.gets fun n => n
  if request.term < n.currentTerm then return ⟨n.currentTerm, false, n.lastLogIndex⟩
  else do
    let raised := decide (n.currentTerm < request.term)
    let n₁ := n.follow request
    Act.modify fun _ => n₁
    let missing ← Act.lift (n₁.mismatched request)
    if missing then do
      persistIf raised
      return ⟨n₁.currentTerm, false, n₁.lastLogIndex⟩
    else do
      let merged := mergeEntries n₁.log request.prevLogIndex raised request.entries
      Act.modify fun n => { n with log := merged.1 }
      persistIf merged.2
      Act.modify fun n =>
        if request.leaderCommit > n.commitIndex then
          { n with commitIndex := min request.leaderCommit n.lastLogIndex } else n
      return ⟨n₁.currentTerm, true, request.prevLogIndex + request.entries.length⟩

/-- `append_as_leader`. -/
def appendAsLeader (command : Bytes) : Act RaftNode ℕ := do
  let n ← Act.gets fun n => n
  if n.role ≠ .leader then Act.fail .other "raft: not leader"
  else do
    Act.modify fun n => { n with log := n.log ++ [⟨n.currentTerm, command⟩] }
    persist
    Act.gets lastLogIndex

/-- Whether `advance_commit` takes the index `candidate`. -/
def canCommit (n : RaftNode) (replicated : List ℕ) (candidate : ℕ) : Bool :=
  let copies := 1 + (replicated.filter fun index => decide (index ≥ candidate)).length
  decide (copies * 2 > replicated.length + 1) &&
    decide (n.log[candidate - 1]?.map Entry.term = some n.currentTerm)

/-- `advance_commit`; its result is the commit index after it. -/
def advanceCommit (n : RaftNode) (replicated : List ℕ) : RaftNode :=
  if n.role ≠ .leader then n
  else
    let candidates := (List.range' (n.commitIndex + 1) (n.lastLogIndex - n.commitIndex)).reverse
    match candidates.find? fun candidate => n.canCommit replicated candidate with
    | some candidate => { n with commitIndex := candidate }
    | none => n

/-- `take_applied`. -/
def takeApplied (n : RaftNode) : Res (List Entry × RaftNode) := do
  let applied ← (List.range' n.lastApplied (n.commitIndex - n.lastApplied)).mapM (Res.get n.log)
  return (applied, { n with lastApplied := max n.lastApplied n.commitIndex })

end RaftNode

end Raft

end NutDb
