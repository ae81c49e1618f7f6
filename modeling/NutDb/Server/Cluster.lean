/-
  A cluster of servers on a network that delays and loses frames (`src/server.rs`).

  Every request has a connection of its own.  Its frame is taken by its receiver
  at some later time, or never; its answer reaches the sender, or the sender gives
  up (`timeout`), whether the frame was taken or not.  A server that waits for a
  peer takes no frame.  A crash ends the request that the server works on and
  forgets the blocked peers; the store stays.  `halt` is a crash between two
  records of a dump.

  `keeps` and `serves` are conditions on a step.  `keeps`: no server is told that a
  peer has staged its record when the peer has kept another one.  `serves`: a read
  has more than half of the nodes, misses no newer record of theirs (because it is
  only staged, or because the `DUMP` is not answered), and does not end at a record
  that is only staged.
-/
import NutDb.Server.Node
import NutDb.Lib.Trace
import Mathlib.Logic.Function.Basic

namespace NutDb.Server

open Lib

/-- A frame on its way. -/
structure Envelope where
  conn : ℕ
  target : U64
  frame : Bytes
  deriving DecidableEq, Repr

/-- A request of a client that a server works on; `waiting` is its open connection to a peer. -/
structure Task where
  conn : ℕ
  phase : Phase
  waiting : Option ℕ := none
  deriving DecidableEq, Repr

/-- What can be observed: the requests of clients, and all answers. -/
inductive Entry where
  | invoked (conn : ℕ) (frame : Bytes)
  | answered (conn : ℕ) (line : String)
  deriving DecidableEq, Repr

/-- The servers with their tasks, the frames on their way, and what was observed so far. -/
structure Cluster where
  server : U64 → Server
  task : U64 → Option Task
  envelopes : List Envelope
  log : List Entry
  next : ℕ

/-- What happens in a step. -/
inductive Event where
  | invoke (target : U64) (frame : Bytes)
  | deliver (conn : ℕ)
  | ask (i : U64)
  | receive (i : U64)
  | timeout (i : U64)
  | advance (i : U64)
  | crash (i : U64)
  | halt (i : U64) (rows : ℕ)
  deriving DecidableEq, Repr

namespace Cluster

/-- The servers `ids`, with empty stores. -/
def start (ids : List U64) : Cluster where
  server i := ⟨i, ids.filter fun peer => decide (peer ≠ i), [], []⟩
  task _ := none
  envelopes := []
  log := []
  next := 0

/-- A server changes. -/
def setServer (c : Cluster) (i : U64) (s : Server) : Cluster :=
  { c with server := Function.update c.server i s }

/-- A server begins, goes on with or ends a request of a client. -/
def setTask (c : Cluster) (i : U64) (task : Option Task) : Cluster :=
  { c with task := Function.update c.task i task }

/-- A frame has been taken. -/
def dropEnvelope (c : Cluster) (conn : ℕ) : Cluster :=
  { c with envelopes := c.envelopes.filter fun e => decide (e.conn ≠ conn) }

/-- A request is answered. -/
def answer (c : Cluster) (conn : ℕ) (response : Res String) : Cluster :=
  { c with log := c.log ++ (answerLine response).toList.map (Entry.answered conn) }

/-- A frame is sent on a new connection. -/
def send (c : Cluster) (target : U64) (frame : Bytes) : Cluster :=
  { c with envelopes := c.envelopes ++ [⟨c.next, target, frame⟩], next := c.next + 1 }

/-- A client sends a request. -/
def invoke (c : Cluster) (target : U64) (frame : Bytes) : Cluster :=
  { c.send target frame with log := c.log ++ [.invoked c.next frame] }

/-- The answer to a connection. -/
def answerTo (c : Cluster) (conn : ℕ) : Option String :=
  c.log.findSome? fun
    | .answered q line => if q = conn then some line else none
    | .invoked _ _ => none

/-- A server goes on with its task, or ends it with an answer. -/
def proceed (c : Cluster) (i : U64) (task : Task) : Server × Next → Cluster
  | (s, .goOn phase) => (c.setServer i s).setTask i (some ⟨task.conn, phase, none⟩)
  | (s, .finish response) => ((c.setServer i s).setTask i none).answer task.conn response

/-- A server takes a frame. -/
def deliver (c : Cluster) (e : Envelope) : Server × Handled → Cluster
  | (s, .done response) => ((c.dropEnvelope e.conn).setServer e.target s).answer e.conn response
  | (s, .run op) =>
    ((c.dropEnvelope e.conn).setServer e.target s).setTask e.target (some ⟨e.conn, s.start op, none⟩)

/-- A server starts again. -/
def restart (c : Cluster) (i : U64) (s : Server) : Cluster :=
  (c.setServer i { s with blocked := [] }).setTask i none

/-- A server that crashed in `catch_up`, when it had merged the first records of a dump. -/
def halted (s : Server) (rows : ℕ) (line : String) : Phase → Server
  | .catching _ _ (_ :: _) =>
    match (stripPrefix "DUMP " line).map decodeDump with
    | some (.ok records) => { s with store := (mergeAll s.store (records.take rows)).1 }
    | _ => s
  | _ => s

/-- A step of the servers `ids`. -/
def step (ids : List U64) (c : Cluster) : Event → Option Cluster
  | .invoke target frame => some (c.invoke target frame)
  | .deliver conn => do
    let e ← c.envelopes.find? fun e => decide (e.conn = conn)
    if e.target ∈ ids ∧ c.task e.target = none then some (c.deliver e ((c.server e.target).handle e.frame))
    else none
  | .ask i => do
    let task ← c.task i
    let (peer, request) ← task.phase.ask
    if task.waiting = none then
      some ((c.send peer (utf8 request.line)).setTask i (some { task with waiting := some c.next }))
    else none
  | .receive i => do
    let task ← c.task i
    let conn ← task.waiting
    let line ← c.answerTo conn
    return c.proceed i task ((c.server i).receive (some line) task.phase)
  | .timeout i => do
    let task ← c.task i
    let _ ← task.waiting
    return c.proceed i task ((c.server i).receive none task.phase)
  | .advance i => do
    let task ← c.task i
    if task.phase.ask = none then some (c.proceed i task ((c.server i).advance task.phase)) else none
  | .crash i => some (c.restart i (c.server i))
  | .halt i rows => do
    let task ← c.task i
    let conn ← task.waiting
    let line ← c.answerTo conn
    return c.restart i (halted (c.server i) rows line task.phase)

/-! ## Conditions on steps -/

/-- The record of a key in a store. -/
def recordOf (m : Records) (key : String) : Option ReplicaValue :=
  match readRecord m key with
  | .ok record => record
  | .error _ => none

/-- Clients send no `REPL` and no `COMMIT`. -/
def clients : Event → Bool
  | .invoke _ frame =>
    match Request.parse frame with
    | .ok (.repl ..) | .ok (.commit ..) => false
    | _ => true
  | _ => true

/-- Clients send `PUT` and `GET` (and frames that are no requests). -/
def putsAndGets : Event → Bool
  | .invoke _ frame =>
    match Request.parse frame with
    | .ok (.put ..) | .ok (.get _) | .error _ => true
    | _ => false
  | _ => true

/-- Some server waits for the answer. -/
def awaited (ids : List U64) (c : Cluster) (conn : ℕ) : Bool :=
  ids.any fun i => (c.task i).any fun task => decide (task.waiting = some conn)

/-- After `REPL`, the record is the staged one: it is replaced, or it is the same already. -/
def stages (current : Option ReplicaValue) (version : U64) (tombstone : Bool) (value : String) : Bool :=
  current.all fun record => decide (record.version < version) ||
    decide (record.version = version ∧ record.tombstone = tombstone ∧ record.value = value)

/-- A `REPL` whose sender waits for the answer is not taken by a server that keeps another record. -/
def keeps (ids : List U64) (c : Cluster) : Event → Bool
  | .deliver conn =>
    c.envelopes.all fun e => decide (e.conn ≠ conn) ||
      match Request.parse e.frame with
      | .ok (.repl key version tombstone value) =>
        !c.awaited ids conn || stages (recordOf (c.server e.target).store key) version tombstone value
      | _ => true
  | _ => true

/-- The record is not merely staged. -/
def unstaged (current : Option ReplicaValue) : Bool := current.all ReplicaValue.committed

/-- The version of the record of a key, zero without one. -/
def versionOf (m : Records) (key : String) : U64 := ((recordOf m key).map ReplicaValue.version).getD 0

/-- The key of a read that catches up, and the peer whose `DUMP` is next. -/
def reading : Phase → Option (String × U64)
  | .catching (.read key) _ (peer :: _) => some (key, peer)
  | _ => none

/-- A read goes on with more than half of the nodes.  When it asks for a `DUMP`, the record of the peer is
    committed or not newer than that of the server; when it gets none, not newer.  In the end the record of the
    server is not merely staged. -/
def serves (ids : List U64) (c : Cluster) : Event → Bool
  | .deliver conn =>
    ids.all fun i => (c.task i).all fun task => decide (task.waiting ≠ some conn) ||
      (reading task.phase).all fun (key, peer) => unstaged (recordOf (c.server peer).store key) ||
        decide (versionOf (c.server peer).store key ≤ versionOf (c.server i).store key)
  | .timeout i =>
    (c.task i).all fun task => (reading task.phase).all fun (key, peer) =>
      decide (versionOf (c.server peer).store key ≤ versionOf (c.server i).store key)
  | .advance i =>
    (c.task i).all fun task =>
      match task.phase with
      | .pinging (.read _) [] alive => decide ((alive.length + 1) * 2 ≠ (c.server i).peers.length + 1)
      | .catching (.read key) _ [] => unstaged (recordOf (c.server i).store key)
      | _ => true
  | _ => true

/-- The steps of a run. -/
abbrev Steps := List (Cluster × Event)

/-- All steps meet a condition. -/
def Meets (ok : Cluster → Event → Bool) (steps : Steps) : Prop := ∀ p ∈ steps, ok p.1 p.2 = true

/-- A run of the servers `ids`. -/
abbrev Run (ids : List U64) : Cluster → Steps → Cluster → Prop :=
  Trace fun c e c' => step ids c e = some c'

/-- The cluster after the events, if all of them can happen and meet a condition. -/
def execute (ids : List U64) (ok : Cluster → Event → Bool) : List Event → Cluster → Option Cluster
  | [], c => some c
  | e :: es, c => if ok c e then (step ids c e).bind (execute ids ok es) else none

theorem run_execute {ids : List U64} {ok : Cluster → Event → Bool} {es : List Event} {c₀ c c' : Cluster}
    {steps : Steps} (hrun : Run ids c₀ steps c) (hok : Meets ok steps) (h : execute ids ok es c = some c') :
    ∃ steps', Run ids c₀ steps' c' ∧ Meets ok steps' := by
  induction es generalizing c steps with
  | nil =>
    cases h
    exact ⟨steps, hrun, hok⟩
  | cons e es ih =>
    rw [execute] at h
    split_ifs at h with he
    obtain ⟨c₁, hstep, h⟩ := Option.bind_eq_some_iff.1 h
    refine ih (hrun.step hstep) (fun p hp => ?_) h
    rcases List.mem_cons.1 hp with rfl | hp
    · exact he
    · exact hok p hp

end Cluster

end NutDb.Server
