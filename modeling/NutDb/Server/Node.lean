/-
  A node of the cluster (`Server` of `src/server.rs`).

  A server answers one request after the other.  `handle` answers those that
  need no peer.  A client's request runs through phases: `alive_peers` asks
  every peer for a sign of life, `catch_up` asks the peers that gave one for
  their committed records, and a write is then staged on them and committed.
  In every phase the server asks one peer at a time (`Phase.ask`), goes on with
  the answer, or without one after a time-out (`receive`), and decides when no
  peer is left (`advance`).
-/
import NutDb.Server.Record

namespace NutDb

open Lib

/-- `Server`: `peers` are the keys of its table of addresses, `store` the map of its store. -/
structure Server where
  id : U64
  peers : List U64
  blocked : List U64
  store : Server.Records
  deriving DecidableEq, Repr

namespace Server

/-- The requests of clients: `client_write` and `client_read`. -/
inductive Op where
  | write (key value : String) (tombstone : Bool)
  | read (key : String)
  deriving DecidableEq, Repr

/-- What is left of a request after `handle` has taken it. -/
inductive Handled where
  | done (response : Res String)
  | run (op : Op)

/-- The answer `OK` for an operation on the store. -/
def stored (s : Server) : Res Records → Server × Handled
  | .ok m => ({ s with store := m }, .done (.ok "OK"))
  | .error e => (s, .done (.error e))

/-- `Server::handle`, on a request that has been parsed. -/
def perform (s : Server) : Request → Server × Handled
  | .ping => (s, .done (.ok ("PONG " ++ s.id.print)))
  | .dump => (s, .done ((dump s.store).map fun rows => "DUMP " ++ rows))
  | .repl key version tombstone value =>
    s.stored (merge s.store key ⟨version, tombstone, false, value⟩)
  | .commit key version => s.stored (commitRecord s.store key version)
  | .put key value => (s, .run (.write key value false))
  | .delete key => (s, .run (.write key "" true))
  | .get key => (s, .run (.read key))
  | .adminBlock peer => ({ s with blocked := peer :: s.blocked }, .done (.ok "OK"))
  | .adminHeal => ({ s with blocked := [] }, .done (.ok "OK"))

/-- `Server::handle`. -/
def handle (s : Server) (request : Bytes) : Server × Handled :=
  match Request.parse request with
  | .ok request => s.perform request
  | .error e => (s, .done (.error e))

/-- The line that `run` writes back; a thread that panicked writes nothing. -/
def answerLine : Res String → Option String
  | .ok response => some response
  | .error (.io e) => some ("ERROR " ++ e.message)
  | .error (.panic _) => none

/-- Where `client_write` or `client_read` stands: the peers that are still to be asked, and what
    the earlier answers have given. -/
inductive Phase where
  /-- `alive_peers`. -/
  | pinging (op : Op) (todo alive : List U64)
  /-- `catch_up`. -/
  | catching (op : Op) (alive todo : List U64)
  /-- The loop over `REPL`. -/
  | staging (key : String) (record : ReplicaValue) (todo staged : List U64)
  /-- The loop over `COMMIT`. -/
  | committing (key : String) (version : U64) (todo : List U64) (acknowledgements : ℕ)
  deriving DecidableEq, Repr

/-- The peer that is asked next, and the request. -/
def Phase.ask : Phase → Option (U64 × Request)
  | pinging _ (peer :: _) _ => some (peer, .ping)
  | catching _ _ (peer :: _) => some (peer, .dump)
  | staging key record (peer :: _) _ =>
    some (peer, .repl key record.version record.tombstone record.value)
  | committing key version (peer :: _) _ => some (peer, .commit key version)
  | _ => none

/-- The start of `client_write` and `client_read`. -/
def start (s : Server) (op : Op) : Phase :=
  .pinging op (s.peers.filter fun peer => !s.blocked.contains peer) []

/-- How a request goes on: in the next phase, or with its answer. -/
inductive Next where
  | goOn (phase : Phase)
  | finish (response : Res String)

/-- `request_peer_fast` has returned, with a line or with an error. -/
def receive (s : Server) (response : Option String) : Phase → Server × Next
  | .pinging op (peer :: todo) alive =>
    if response = some ("PONG " ++ peer.print) then (s, .goOn (.pinging op todo (alive ++ [peer])))
    else (s, .goOn (.pinging op todo alive))
  | .catching op alive (_ :: todo) =>
    match response.bind (stripPrefix "DUMP ") with
    | none => (s, .goOn (.catching op alive todo))
    | some text =>
      match decodeDump text with
      | .error e => (s, .finish (.error e))
      | .ok rows =>
        match mergeAll s.store rows with
        | (m, .ok ()) => ({ s with store := m }, .goOn (.catching op alive todo))
        | (m, .error e) => ({ s with store := m }, .finish (.error e))
  | .staging key record (peer :: todo) staged =>
    if response = some "OK" then (s, .goOn (.staging key record todo (staged ++ [peer])))
    else (s, .goOn (.staging key record todo staged))
  | .committing key version (_ :: todo) acknowledgements =>
    if response = some "OK" then (s, .goOn (.committing key version todo (acknowledgements + 1)))
    else (s, .goOn (.committing key version todo acknowledgements))
  | phase => (s, .goOn phase)

/-- The smallest id among the server and the peers that answered. -/
def leader (s : Server) (alive : List U64) : U64 := alive.foldl min s.id

/-- The answer of `client_read`. -/
def readLine : Option ReplicaValue → String
  | some record => if record.committed && !record.tombstone then valueLine record.value else "NIL"
  | none => "NIL"

/-- The record of a write, one version above the stored one. -/
def nextRecord (s : Server) (key value : String) (tombstone : Bool) : Res ReplicaValue := do
  let current ← readRecord s.store key
  let version ← Res.ofOption .invalidData "cluster: version exhausted"
    (U64.checkedAdd ((current.map ReplicaValue.version).getD 0) 1)
  return ⟨version, tombstone, false, value⟩

/-- All peers of the phase have been asked. -/
def advance (s : Server) : Phase → Server × Next
  | .pinging op [] alive =>
    if s.leader alive ≠ s.id then
      (s, .finish (.ok ("REDIRECT " ++ (s.leader alive).print)))
    else if alive.length + 1 ≤ s.peers.length / 2 then (s, .finish (.ok "RETRY no-quorum"))
    else (s, .goOn (.catching op alive alive))
  | .catching (.read key) _ [] => (s, .finish ((readRecord s.store key).map readLine))
  | .catching (.write key value tombstone) alive [] =>
    match s.nextRecord key value tombstone with
    | .ok record => (s, .goOn (.staging key record alive []))
    | .error e => (s, .finish (.error e))
  | .staging key record [] staged =>
    if (staged.length + 1) * 2 ≤ s.peers.length + 1 then
      (s, .finish (.ok "RETRY indeterminate"))
    else
      match merge s.store key { record with committed := true } with
      | .ok m => ({ s with store := m }, .goOn (.committing key record.version staged 1))
      | .error e => (s, .finish (.error e))
  | .committing _ version [] acknowledgements =>
    if acknowledgements * 2 > s.peers.length + 1 then (s, .finish (.ok ("OK " ++ version.print)))
    else (s, .finish (.ok "RETRY indeterminate"))
  | phase => (s, .goOn phase)

end Server

end NutDb
