/-
  Requests one at a time (`src/server.rs`).

  While a server works on a request, its links do not change: a peer answers all
  of its requests, or none (`links`).  `askAll` is the loop over `REPL` and the loop
  over `COMMIT`, with what it leaves of the peers; `write` is `client_write` with it.
  `write_eq` says that this is `clientWrite`, for the answers that the peers give.
-/
import NutDb.Server.Read

namespace NutDb.Server

open Lib

/-- The servers, by their ids. -/
abbrev Servers := U64 → Server

/-- The network of a server, some of whose peers can be reached; a request that is too long for
    a frame is not sent. -/
def links (up : U64 → Bool) (w : Servers) : Network where
  server := w
  passes peer request := up peer && decide ((utf8 request.line).length ≤ MAX_FRAME)

/-- What a request leaves of the peer that it is sent to. -/
def Network.visited (net : Network) (peer : U64) (request : Request) : Server :=
  if net.passes peer request then ((net.server peer).handle (utf8 request.line)).1 else net.server peer

/-- A request to one peer after the other: those that answer `OK`. -/
def askAll (up : U64 → Bool) (request : Request) : List U64 → Servers → List U64 × Servers
  | [], w => ([], w)
  | peer :: peers, w =>
    let (confirmed, w') := askAll up request peers (Function.update w peer ((links up w).visited peer request))
    (if (links up w).ask peer request = some "OK" then peer :: confirmed else confirmed, w')

/-- The end of `client_write`: the record is staged on the peers alive, and committed. -/
def replicate (up : U64 → Bool) (w : Servers) (i : U64) (key : String) (record : ReplicaValue)
    (alive : List U64) : Servers × Res String :=
  let s := w i
  let (staged, w) := askAll up (.repl key record.version record.tombstone record.value) alive w
  if (staged.length + 1) * 2 ≤ s.peers.length + 1 then (w, .ok "RETRY indeterminate")
  else
    match merge s.store key { record with committed := true } with
    | .error e => (w, .error e)
    | .ok m =>
      let (confirmed, w) := askAll up (.commit key record.version) staged (Function.update w i { s with store := m })
      if (1 + confirmed.length) * 2 > s.peers.length + 1 then (w, .ok ("OK " ++ record.version.print))
      else (w, .ok "RETRY indeterminate")

/-- `client_write`, on the servers. -/
def write (up : U64 → Bool) (w : Servers) (i : U64) (key value : String) (tombstone : Bool) :
    Servers × Res String :=
  let s := w i
  let net := links up w
  let alive := s.alivePeers net
  if s.leader alive ≠ s.id then (w, .ok ("REDIRECT " ++ (s.leader alive).print))
  else if alive.length + 1 ≤ s.peers.length / 2 then (w, .ok "RETRY no-quorum")
  else
    match catchUp net alive s.store with
    | (m, .error e) => (Function.update w i { s with store := m }, .error e)
    | (m, .ok ()) =>
      let s := { s with store := m }
      match s.nextRecord key value tombstone with
      | .error e => (Function.update w i s, .error e)
      | .ok record => replicate up (Function.update w i s) i key record alive

/-- `client_read`, on the servers. -/
def read (up : U64 → Bool) (w : Servers) (i : U64) (key : String) : Servers × Res String :=
  let (s, response) := (w i).clientRead (links up w) key
  (Function.update w i s, response)

/-- A server takes a frame, and answers it. -/
def serve (up : U64 → Bool) (w : Servers) (i : U64) (frame : Bytes) : Servers × Res String :=
  match (w i).handle frame with
  | (s, .done response) => (Function.update w i s, response)
  | (s, .run (.write key value tombstone)) => write up (Function.update w i s) i key value tombstone
  | (s, .run (.read key)) => read up (Function.update w i s) i key

/-- What happens between requests: nothing, or a server starts again, with its store. -/
inductive RoundEvent where
  | request (i : U64) (up : U64 → Bool) (frame : Bytes)
  | restart (i : U64)

/-- A step of the servers `ids`, with the answer that it gives. -/
inductive Round (ids : List U64) : Servers → RoundEvent × Res String → Servers → Prop
  | request {w w' : Servers} {i : U64} {up : U64 → Bool} {frame : Bytes} {response : Res String} : i ∈ ids →
      serve up w i frame = (w', response) → Round ids w (.request i up frame, response) w'
  | restart {w : Servers} {i : U64} : i ∈ ids →
      Round ids w (.restart i, .ok "") (Function.update w i { w i with blocked := [] })

/-- The servers `ids`, with empty stores. -/
def freshServers (ids : List U64) : Servers := fun i => ⟨i, ids.filter fun peer => decide (peer ≠ i), [], []⟩

/-! ## Asking all peers -/

section AskAll
variable {up : U64 → Bool} {w : Servers} {i peer : U64} {peers : List U64} {request : Request} {s : Server}

/-- Only the peer that is asked matters. -/
theorem ask_update (h : peer ≠ i) : (links up (Function.update w i s)).ask peer request = (links up w).ask peer request := by
  have hserver : (links up (Function.update w i s)).server peer = (links up w).server peer := Function.update_of_ne h ..
  rw [Network.ask, Network.ask, hserver]
  rfl

theorem visited_update (h : peer ≠ i) :
    (links up (Function.update w i s)).visited peer request = (links up w).visited peer request := by
  have hserver : (links up (Function.update w i s)).server peer = (links up w).server peer := Function.update_of_ne h ..
  rw [Network.visited, Network.visited, hserver]
  rfl

/-- **Asking all peers**: each answers for itself. -/
theorem askAll_eq (up : U64 → Bool) (request : Request) (w : Servers) (hnodup : peers.Nodup) : askAll up request peers w =
    (peers.filter fun peer => decide ((links up w).ask peer request = some "OK"),
      fun j => if j ∈ peers then (links up w).visited j request else w j) := by
  induction peers generalizing w with
  | nil => simp [askAll]
  | cons peer peers ih =>
    obtain ⟨hnot, hnodup⟩ := List.nodup_cons.1 hnodup
    have hother : ∀ j ∈ peers, j ≠ peer := fun j hj heq => hnot (heq ▸ hj)
    rw [askAll, ih _ hnodup]
    refine Prod.ext ?_ (funext fun j => ?_)
    · have hrest : (peers.filter fun j => decide ((links up (Function.update w peer
          ((links up w).visited peer request))).ask j request = some "OK")) =
          peers.filter fun j => decide ((links up w).ask j request = some "OK") :=
        List.filter_congr fun j hj => by rw [ask_update (hother j hj)]
      simp only [hrest, List.filter_cons, decide_eq_true_eq]
    · by_cases hj : j ∈ peers
      · simp only [hj, if_true, List.mem_cons, or_true, visited_update (hother j hj)]
      · by_cases hpeer : j = peer
        · rw [hpeer] at hj ⊢
          simp only [hj, if_false, List.mem_cons_self, if_true, Function.update_self]
        · simp only [hj, if_false, List.mem_cons, hpeer, or_self, Function.update_of_ne hpeer]

/-- The others are asked: their answers do not depend on the server that asks, which stays as it is. -/
theorem askAll_update (hnodup : peers.Nodup) (hi : i ∉ peers) : ∃ w', askAll up request peers (Function.update w i s) =
    (confirming (links up w).ask request peers, w') ∧ w' i = s := by
  have hne : ∀ peer ∈ peers, peer ≠ i := fun peer hp heq => hi (heq ▸ hp)
  have hconfirm : (peers.filter fun peer => decide ((links up (Function.update w i s)).ask peer request = some "OK")) =
      confirming (links up w).ask request peers :=
    List.filter_congr fun peer hp => by rw [ask_update (hne peer hp)]
  refine ⟨_, by rw [askAll_eq _ _ _ hnodup, hconfirm], ?_⟩
  simp only [if_neg hi, Function.update_self]

/-! ## The answers of a write -/

theorem catchUpFrom_congr {ask ask' : Ask} (h : ∀ peer, ask peer .dump = ask' peer .dump) (peers : List U64)
    (m : Records) : catchUpFrom ask peers m = catchUpFrom ask' peers m := by
  induction peers generalizing m with
  | nil => rfl
  | cons peer peers ih =>
    rw [catchUpFrom, catchUpFrom, h peer]
    cases (ask' peer .dump).bind (stripPrefix "DUMP ") with
    | none => exact ih m
    | some text =>
      dsimp only
      cases decodeDump text with
      | error e => rfl
      | ok rows =>
        dsimp only
        rcases mergeAll m rows with ⟨m', e | u⟩
        · rfl
        · exact ih m'

/-- What the peers answer in the course of a write: to a `COMMIT`, as `w'` has them. -/
def answersOf (up : U64 → Bool) (w w' : Servers) : Ask := fun peer request =>
  match request with
  | .commit key version => (links up w').ask peer (.commit key version)
  | request => (links up w).ask peer request

/-- **`write` is `clientWrite`**, with the answers of the peers, and the other servers asked. -/
theorem write_eq (key value : String) (tombstone : Bool) (hnodup : (w i).peers.Nodup) (hi : i ∉ (w i).peers) :
    ∃ ask : Ask, (write up w i key value tombstone).2 = ((w i).clientWrite ask key value tombstone).2 ∧
      (write up w i key value tombstone).1 i = ((w i).clientWrite ask key value tombstone).1 := by
  have halive : ∀ w', (w i).answering (answersOf up w w') = (w i).alivePeers (links up w) := fun _ => rfl
  have hsub : ((w i).alivePeers (links up w)).Sublist (w i).peers := List.filter_sublist.trans List.filter_sublist
  have hcatch : ∀ w' peers m, catchUpFrom (answersOf up w w') peers m = catchUp (links up w) peers m := by
    intro w' peers m
    have hdump : ∀ peer, answersOf up w w' peer .dump = (links up w).ask peer .dump := fun _ => rfl
    rw [← catchUpFrom_ask]
    exact catchUpFrom_congr hdump peers m
  by_cases hleader : (w i).leader ((w i).alivePeers (links up w)) ≠ (w i).id
  · refine ⟨answersOf up w w, ?_⟩
    simp only [write, clientWrite, halive, if_pos hleader, and_self]
  by_cases hquorum : ((w i).alivePeers (links up w)).length + 1 ≤ (w i).peers.length / 2
  · refine ⟨answersOf up w w, ?_⟩
    simp only [write, clientWrite, halive, if_neg hleader, if_pos hquorum, and_self]
  rcases hc : catchUp (links up w) ((w i).alivePeers (links up w)) (w i).store with ⟨m, e | u⟩
  · refine ⟨answersOf up w w, ?_⟩
    simp only [write, clientWrite, halive, hcatch, if_neg hleader, if_neg hquorum, hc, Function.update_self, and_self]
  rcases hn : nextRecord { w i with store := m } key value tombstone with e | record
  · refine ⟨answersOf up w w, ?_⟩
    simp only [write, clientWrite, halive, hcatch, if_neg hleader, if_neg hquorum, hc, hn, Function.update_self,
      and_self]
  -- the peers that have staged the record answer a `COMMIT` as they are then
  have hi' : i ∉ (w i).alivePeers (links up w) := fun h => hi (hsub.subset h)
  generalize hrequest : Request.repl key record.version record.tombstone record.value = request
  obtain ⟨w₁, hstage, hself⟩ : ∃ w₁, askAll up request ((w i).alivePeers (links up w))
      (Function.update w i { w i with store := m }) =
        (confirming (links up w).ask request ((w i).alivePeers (links up w)), w₁) ∧ w₁ i = { w i with store := m } :=
    askAll_update (hsub.nodup hnodup) hi'
  have hconfirm : ∀ w', confirming (answersOf up w w') request ((w i).alivePeers (links up w)) =
      confirming (links up w).ask request ((w i).alivePeers (links up w)) := by
    intro w'
    subst hrequest
    rfl
  refine ⟨answersOf up w w₁, ?_⟩
  simp only [write, replicate, clientWrite, halive, hcatch, if_neg hleader, if_neg hquorum, hc, hn, hrequest,
    hstage, hconfirm, Function.update_self]
  generalize hgroup : confirming (links up w).ask request ((w i).alivePeers (links up w)) = staged
  have hstaged : staged.Sublist ((w i).alivePeers (links up w)) := by
    rw [← hgroup]
    exact List.filter_sublist
  by_cases hmajority : (staged.length + 1) * 2 ≤ (w i).peers.length + 1
  · simp only [if_pos hmajority, hself, and_self]
  rcases merge m key { record with committed := true } with e | m'
  · simp only [if_neg hmajority, hself, and_self]
  obtain ⟨w₂, hcommit, hself'⟩ : ∃ w₂, askAll up (.commit key record.version) staged
      (Function.update w₁ i { w i with store := m' }) =
        (confirming (answersOf up w w₁) (.commit key record.version) staged, w₂) ∧
        w₂ i = { w i with store := m' } :=
    askAll_update ((hstaged.trans hsub).nodup hnodup) fun h => hi' (hstaged.subset h)
  simp only [if_neg hmajority, hcommit]
  split_ifs
  · simp only [hself', and_self]
  · simp only [hself', and_self]

end AskAll

end NutDb.Server
