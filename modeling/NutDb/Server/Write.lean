/-
  Writes of a server (`client_write` of `src/server.rs`).

  A write counts the peers that answer a `PING`, merges their dumps, and stages
  its record on them; it is committed if a majority has it.  `ask` gives what
  `request_peer_fast` returns: no request is sent to a peer twice in an operation,
  so any answers at all are an `ask`.

  `clientWrite` is the function as it stands, `AnsweredBy` is the run of its phases;
  `clientWrite_answered` connects them.
-/
import NutDb.Server.Node

namespace NutDb.Server

open Lib

/-- What a peer answers to a request, if its answer arrives. -/
abbrev Ask := U64 → Request → Option String

/-- The peers that are not blocked. -/
def unblocked (s : Server) : List U64 := s.peers.filter fun peer => !s.blocked.contains peer

/-- `alive_peers`, for any answers. -/
def answering (s : Server) (ask : Ask) : List U64 :=
  s.unblocked.filter fun peer => decide (ask peer .ping = some ("PONG " ++ peer.print))

/-- `catch_up`, on the store, for any answers. -/
def catchUpFrom (ask : Ask) : List U64 → Records → Records × Res Unit
  | [], m => (m, .ok ())
  | peer :: peers, m =>
    match (ask peer .dump).bind (stripPrefix "DUMP ") with
    | none => catchUpFrom ask peers m
    | some text =>
      match decodeDump text with
      | .error e => (m, .error e)
      | .ok rows =>
        match mergeAll m rows with
        | (m, .ok ()) => catchUpFrom ask peers m
        | (m, .error e) => (m, .error e)

/-- The peers that answer `OK`. -/
def confirming (ask : Ask) (request : Request) (peers : List U64) : List U64 :=
  peers.filter fun peer => decide (ask peer request = some "OK")

/-- `client_write`. -/
def clientWrite (s : Server) (ask : Ask) (key value : String) (tombstone : Bool) : Server × Res String :=
  let alive := s.answering ask
  if s.leader alive ≠ s.id then (s, .ok ("REDIRECT " ++ (s.leader alive).print))
  else if alive.length + 1 ≤ s.peers.length / 2 then (s, .ok "RETRY no-quorum")
  else
    match catchUpFrom ask alive s.store with
    | (m, .error e) => ({ s with store := m }, .error e)
    | (m, .ok ()) =>
      let s := { s with store := m }
      match s.nextRecord key value tombstone with
      | .error e => (s, .error e)
      | .ok record =>
        let staged := confirming ask (.repl key record.version record.tombstone record.value) alive
        if (staged.length + 1) * 2 ≤ s.peers.length + 1 then (s, .ok "RETRY indeterminate")
        else
          match merge s.store key { record with committed := true } with
          | .error e => (s, .error e)
          | .ok m =>
            let acknowledgements := 1 + (confirming ask (.commit key record.version) staged).length
            if acknowledgements * 2 > s.peers.length + 1 then
              ({ s with store := m }, .ok ("OK " ++ record.version.print))
            else ({ s with store := m }, .ok "RETRY indeterminate")

/-! ## Phases -/

/-- A request runs through its phases, with the given answers, to its end. -/
inductive AnsweredBy (ask : Ask) : Server → Phase → Server → Res String → Prop
  | asked {s phase peer request s' phase' s'' response} : phase.ask = some (peer, request) →
      s.receive (ask peer request) phase = (s', .goOn phase') →
      AnsweredBy ask s' phase' s'' response → AnsweredBy ask s phase s'' response
  | askedLast {s phase peer request s' response} : phase.ask = some (peer, request) →
      s.receive (ask peer request) phase = (s', .finish response) →
      AnsweredBy ask s phase s' response
  | advanced {s phase s' phase' s'' response} : phase.ask = none →
      s.advance phase = (s', .goOn phase') → AnsweredBy ask s' phase' s'' response →
      AnsweredBy ask s phase s'' response
  | advancedLast {s phase s' response} : phase.ask = none →
      s.advance phase = (s', .finish response) → AnsweredBy ask s phase s' response

section Phases
variable {ask : Ask} {s s' : Server} {response : Res String} {op : Op}

theorem answered_pinging (todo alive : List U64)
    (h : AnsweredBy ask s (.pinging op []
      (alive ++ todo.filter fun peer => decide (ask peer .ping = some ("PONG " ++ peer.print))))
      s' response) :
    AnsweredBy ask s (.pinging op todo alive) s' response := by
  induction todo generalizing alive with
  | nil => simpa using h
  | cons peer todo ih =>
    by_cases hp : ask peer .ping = some ("PONG " ++ peer.print)
    · refine .asked rfl (if_pos hp) (ih _ ?_)
      rw [List.filter_cons_of_pos (by simpa using hp)] at h
      rwa [List.append_assoc]
    · refine .asked rfl (if_neg hp) (ih _ ?_)
      rwa [List.filter_cons_of_neg (by simpa using hp)] at h

theorem answered_catching (todo : List U64) {alive : List U64} {m : Records}
    (herr : ∀ e, (catchUpFrom ask todo m).2 = .error e →
      s' = { s with store := (catchUpFrom ask todo m).1 } ∧ response = .error e)
    (hok : (catchUpFrom ask todo m).2 = .ok () →
      AnsweredBy ask { s with store := (catchUpFrom ask todo m).1 } (.catching op alive []) s' response) :
    AnsweredBy ask { s with store := m } (.catching op alive todo) s' response := by
  induction todo generalizing m with
  | nil => exact hok rfl
  | cons peer todo ih =>
    have hask : Phase.ask (.catching op alive (peer :: todo)) = some (peer, .dump) := rfl
    rw [catchUpFrom] at herr hok
    rcases hdump : (ask peer .dump).bind (stripPrefix "DUMP ") with _ | text
    · simp only [hdump] at herr hok
      exact .asked hask (by simp only [receive, hdump]) (ih herr hok)
    · rcases hdec : decodeDump text with e | rows
      · simp only [hdump, hdec] at herr hok
        obtain ⟨rfl, rfl⟩ := herr e rfl
        exact .askedLast hask (by simp only [receive, hdump, hdec])
      · rcases hmerge : mergeAll m rows with ⟨m', e | u⟩
        · simp only [hdump, hdec, hmerge] at herr hok
          obtain ⟨rfl, rfl⟩ := herr e rfl
          exact .askedLast hask (by simp only [receive, hdump, hdec, hmerge])
        · simp only [hdump, hdec, hmerge] at herr hok
          exact .asked hask (by simp only [receive, hdump, hdec, hmerge]) (ih herr hok)

theorem answered_staging {key : String} {record : ReplicaValue} (todo staged : List U64)
    (h : AnsweredBy ask s (.staging key record []
      (staged ++ confirming ask (.repl key record.version record.tombstone record.value) todo)) s' response) :
    AnsweredBy ask s (.staging key record todo staged) s' response := by
  induction todo generalizing staged with
  | nil => simpa [confirming] using h
  | cons peer todo ih =>
    by_cases hp : ask peer (.repl key record.version record.tombstone record.value) = some "OK"
    · refine .asked rfl (if_pos hp) (ih _ ?_)
      rw [confirming, List.filter_cons_of_pos (by simpa using hp)] at h
      rwa [List.append_assoc]
    · refine .asked rfl (if_neg hp) (ih _ ?_)
      rwa [confirming, List.filter_cons_of_neg (by simpa using hp)] at h

theorem answered_committing {key : String} {version : U64} (todo : List U64) (acknowledgements : ℕ)
    (h : AnsweredBy ask s (.committing key version []
      (acknowledgements + (confirming ask (.commit key version) todo).length)) s' response) :
    AnsweredBy ask s (.committing key version todo acknowledgements) s' response := by
  induction todo generalizing acknowledgements with
  | nil => exact h
  | cons peer todo ih =>
    by_cases hp : ask peer (.commit key version) = some "OK"
    · refine .asked rfl (if_pos hp) (ih _ ?_)
      rw [confirming, List.filter_cons_of_pos (by simpa using hp), List.length_cons] at h
      rwa [Nat.add_assoc, Nat.add_comm 1]
    · refine .asked rfl (if_neg hp) (ih _ ?_)
      rwa [confirming, List.filter_cons_of_neg (by simpa using hp)] at h

/-! ### The start of an operation -/

theorem answered_start (h : AnsweredBy ask s (.pinging op [] (s.answering ask)) s' response) :
    AnsweredBy ask s (s.start op) s' response :=
  answered_pinging _ [] h

/-- Another node leads. -/
theorem answered_redirect (hleader : s.leader (s.answering ask) ≠ s.id) :
    AnsweredBy ask s (s.start op) s (.ok ("REDIRECT " ++ (s.leader (s.answering ask)).print)) :=
  answered_start (.advancedLast rfl (by simp only [advance, if_pos hleader]))

/-- Too few peers are alive. -/
theorem answered_refused (hleader : ¬ s.leader (s.answering ask) ≠ s.id)
    (hquorum : (s.answering ask).length + 1 ≤ s.peers.length / 2) :
    AnsweredBy ask s (s.start op) s (.ok "RETRY no-quorum") :=
  answered_start (.advancedLast rfl (by simp only [advance, if_neg hleader, if_pos hquorum]))

/-- The server leads, and catches up. -/
theorem answered_leads (hleader : ¬ s.leader (s.answering ask) ≠ s.id)
    (hquorum : ¬ (s.answering ask).length + 1 ≤ s.peers.length / 2)
    (herr : ∀ m e, catchUpFrom ask (s.answering ask) s.store = (m, .error e) →
      s' = { s with store := m } ∧ response = .error e)
    (hok : ∀ m, catchUpFrom ask (s.answering ask) s.store = (m, .ok ()) →
      AnsweredBy ask { s with store := m } (.catching op (s.answering ask) []) s' response) :
    AnsweredBy ask s (s.start op) s' response := by
  have hgoOn : s.advance (.pinging op [] (s.answering ask)) =
      (s, .goOn (.catching op (s.answering ask) (s.answering ask))) := by
    simp only [advance, if_neg hleader, if_neg hquorum]
  refine answered_start (.advanced rfl hgoOn ?_)
  exact answered_catching (s := s) (m := s.store) (s.answering ask)
    (fun e he => herr _ e (Prod.ext rfl he)) fun he => hok _ (Prod.ext rfl he)

/-- **`client_write` is the run of its phases.** -/
theorem clientWrite_answered (ask : Ask) (s : Server) (key value : String) (tombstone : Bool) :
    AnsweredBy ask s (s.start (.write key value tombstone)) (s.clientWrite ask key value tombstone).1
      (s.clientWrite ask key value tombstone).2 := by
  unfold clientWrite
  by_cases hleader : s.leader (s.answering ask) ≠ s.id
  · rw [if_pos hleader]
    exact answered_redirect hleader
  rw [if_neg hleader]
  by_cases hquorum : (s.answering ask).length + 1 ≤ s.peers.length / 2
  · rw [if_pos hquorum]
    exact answered_refused hleader hquorum
  rw [if_neg hquorum]
  refine answered_leads hleader hquorum (fun m e hc => ?_) fun m hc => ?_
  · rw [hc]
    exact ⟨rfl, rfl⟩
  rw [hc]
  dsimp only
  cases hnext : nextRecord { s with store := m } key value tombstone with
  | error e => exact .advancedLast rfl (by simp only [advance, hnext])
  | ok record =>
    have hstage : advance { s with store := m } (.catching (.write key value tombstone) (s.answering ask) []) =
        ({ s with store := m }, .goOn (.staging key record (s.answering ask) [])) := by
      simp only [advance, hnext]
    refine .advanced rfl hstage (answered_staging _ [] ?_)
    rw [List.nil_append]
    dsimp only
    -- the record is staged on all peers that take it
    generalize hstaged : confirming ask (.repl key record.version record.tombstone record.value)
      (s.answering ask) = staged
    by_cases hmajority : (staged.length + 1) * 2 ≤ s.peers.length + 1
    · rw [if_pos hmajority]
      exact .advancedLast rfl (by simp only [advance, if_pos hmajority])
    rw [if_neg hmajority]
    cases hmerge : merge m key { record with committed := true } with
    | error e => exact .advancedLast rfl (by simp only [advance, if_neg hmajority, hmerge])
    | ok m' =>
      have hcommit : advance { s with store := m } (.staging key record [] staged) =
          ({ s with store := m' }, .goOn (.committing key record.version staged 1)) := by
        simp only [advance, if_neg hmajority, hmerge]
      refine .advanced rfl hcommit (answered_committing _ _ ?_)
      dsimp only
      split_ifs with hcount
      · exact .advancedLast rfl (by simp only [advance, if_pos hcount])
      · exact .advancedLast rfl (by simp only [advance, if_neg hcount])

end Phases

end NutDb.Server
