/-
  What the handlers of a Raft node do.

  `Stores wal s`: the log file of a node holds the state `s`.  A handler that
  changes the persistent state writes it, or fails because the log is too large,
  and then the file keeps the state before (`Kept`).
-/
import NutDb.Raft.Node
import NutDb.Lib.Raft

namespace NutDb

open Lib Lib.Raft

namespace Raft

/-! ## The log file -/

/-- A log file whose last record is a state. -/
def Stores (wal : Bytes) (s : PersistentState) : Prop :=
  ∃ ps, (∀ p ∈ ps, Wal.Fits p) ∧ wal = Wal.frames ps ∧ loadState ps = .ok s

/-- The state in a log file. -/
def stored (wal : Bytes) : PersistentState := ((loadState (Wal.replay wal).records).toOption).getD {}

theorem Stores.load {wal : Bytes} {s : PersistentState} (h : Stores wal s) :
    loadState (Wal.replay wal).records = .ok s ∧ (Wal.replay wal).truncated = false := by
  obtain ⟨ps, hfit, rfl, hs⟩ := h
  rw [Wal.replay_frames hfit]
  exact ⟨hs, rfl⟩

theorem Stores.stored {wal : Bytes} {s : PersistentState} (h : Stores wal s) : stored wal = s := by
  simp [Raft.stored, h.load.1, Except.toOption]

theorem stores_nil : Stores [] {} := ⟨[], by simp, rfl, rfl⟩

/-- A record that is appended becomes the state of the log file. -/
theorem Stores.append {wal payload : Bytes} {s s' : PersistentState} (h : Stores wal s)
    (he : s'.encode = .ok payload) (hfit : Wal.Fits payload) : Stores (wal ++ Wal.frame payload) s' := by
  obtain ⟨ps, hps, rfl, hs⟩ := h
  refine ⟨ps ++ [payload], fun p hp => ?_, by simp, ?_⟩
  · rcases List.mem_append.1 hp with hp | hp
    · exact hps p hp
    · rw [List.mem_singleton.1 hp]; exact hfit
  · unfold loadState at hs ⊢
    rw [List.foldlM_append, hs]
    simp [PersistentState.decode_encode he]

/-- A state in a log file has a log that can be written. -/
theorem Stores.persistable {wal : Bytes} {s : PersistentState} (h : Stores wal s) : Persistable s.log := by
  obtain ⟨ps, hfit, -, hs⟩ := h
  rw [persistable_iff]
  rcases List.eq_nil_or_concat ps with rfl | ⟨ps, p, rfl⟩
  · cases hs
    decide
  · rw [List.concat_eq_append, loadState, List.foldlM_append] at hs
    obtain ⟨s₀, -, hs⟩ := Res.bind_eq_ok.1 hs
    rw [List.foldlM_cons] at hs
    obtain ⟨s', hp, hs⟩ := Res.bind_eq_ok.1 hs
    cases hs
    rw [← length_decode hp]
    exact hfit p (by simp)

/-- The persistent state, as the protocol sees it. -/
def PersistentState.replica (s : PersistentState) : Replica U64 U64 Entry :=
  ⟨s.currentTerm, s.votedFor, s.log⟩

/-- How a handler leaves the log file: it holds the state, or it is as before because the state is,
    or because the state cannot be written. -/
def Kept (n n' : RaftNode) : Prop :=
  Stores n'.wal n'.state ∨ (n'.wal = n.wal ∧ (n'.state = n.state ∨ ¬ Persistable n'.log))

section Kept
variable {n n' : RaftNode} {s : PersistentState}

theorem Kept.refl (n : RaftNode) : Kept n n := Or.inr ⟨rfl, Or.inl rfl⟩

/-- The log file holds some state after a handler if it did so before. -/
theorem Kept.stores (h : Kept n n') (hs : Stores n.wal s) : ∃ s', Stores n'.wal s' := by
  rcases h with h | ⟨h, -⟩
  · exact ⟨_, h⟩
  · exact ⟨s, h ▸ hs⟩

/-- The log file holds the state after a handler exactly if the log can be written. -/
theorem Kept.stores_iff (h : Kept n n') (hs : Stores n.wal n.state) :
    Stores n'.wal n'.state ↔ Persistable n'.log := by
  refine ⟨fun h' => h'.persistable, fun hp => ?_⟩
  rcases h with h | ⟨hw, hsame | hno⟩
  · exact h
  · rw [hw, hsame]
    exact hs
  · exact absurd hp hno

end Kept

/-! ## Handlers -/

namespace RaftNode
variable {n n' : RaftNode} {s : PersistentState}

/-- **`persist`** writes the state, unless the log is too large. -/
theorem persist_run (n : RaftNode) (hs : Stores n.wal s) :
    (∃ w, persist.run n = (.ok (), { n with wal := w }) ∧ Stores w n.state ∧ Persistable n.log) ∨
      ∃ e, persist.run n = (.error e, n) ∧ ¬ Persistable n.log := by
  rcases he : n.state.encode with e | payload
  · refine Or.inr ⟨e, by simp [persist, Act.run_bind, he], fun hp => ?_⟩
    obtain ⟨b, hb, -⟩ := hp n.currentTerm n.votedFor
    have hb : n.state.encode = .ok b := hb
    rw [he] at hb
    cases hb
  · by_cases hfit : Wal.Fits payload
    · refine Or.inl ⟨n.wal ++ Wal.frame payload, ?_, hs.append he hfit, persistable_of_encode he hfit⟩
      simp [persist, Act.run_bind, he, Wal.append_of_fits hfit]
    · refine Or.inr ⟨.io ⟨.invalidInput, "wal: record exceeds 4 GiB"⟩, ?_, fun hp => hfit ?_⟩
      · simp [persist, Act.run_bind, he, Wal.append, hfit, Res.fail]
      · obtain ⟨b, hb, hfit'⟩ := hp n.currentTerm n.votedFor
        have hb : n.state.encode = .ok b := hb
        rw [he] at hb
        cases hb
        exact hfit'

/-- A handler that changes a node in memory and writes it if the persistent state has changed. -/
theorem persistIf_spec {n₁ : RaftNode} {b : Bool} {r : Res Unit} (hs : Stores n.wal s)
    (h : (persistIf b).run n₁ = (r, n')) (hwal : n₁.wal = n.wal)
    (hb : b = false → n₁.state = n.state) :
    ∃ w, n' = { n₁ with wal := w } ∧ Kept n n' ∧
      (∀ u, r = .ok u → Persistable n'.log ∨ b = false) := by
  unfold persistIf at h
  split_ifs at h with hb'
  · rcases persist_run n₁ (s := s) (hwal ▸ hs) with ⟨w, hrun, hw, hp⟩ | ⟨e, hrun, hp⟩
    · rw [hrun] at h
      cases h
      exact ⟨w, rfl, Or.inl hw, fun _ _ => Or.inl hp⟩
    · rw [hrun] at h
      cases h
      exact ⟨n'.wal, rfl, Or.inr ⟨hwal, Or.inr hp⟩, fun _ hu => (nomatch hu)⟩
  · cases h
    have hb' : b = false := by simpa using hb'
    exact ⟨n'.wal, rfl, Or.inr ⟨hwal, Or.inl (hb hb')⟩, fun _ _ => Or.inr hb'⟩

/-- `persist` after a change in memory. -/
theorem persist_spec {n₁ : RaftNode} {r : Res Unit} (hs : Stores n.wal s)
    (h : persist.run n₁ = (r, n')) (hwal : n₁.wal = n.wal) :
    ∃ w, n' = { n₁ with wal := w } ∧ Kept n n' ∧ (∀ u, r = .ok u → Persistable n'.log) := by
  obtain ⟨w, h1, h2, h3⟩ := persistIf_spec (b := true) hs h hwal fun hb => (nomatch hb)
  refine ⟨w, h1, h2, fun u hu => ?_⟩
  rcases h3 u hu with h3 | hb
  · exact h3
  · cases hb

/-- **`start_election`** moves to the next term and votes for the node itself. -/
theorem startElection_spec {r : Res RequestVote} (hs : Stores n.wal s)
    (h : startElection.run n = (r, n')) :
    (n' = n ∧ ∃ e, r = .error e) ∨
      ∃ term w, n.currentTerm < term ∧
        n' = { n with currentTerm := term, role := .candidate, leaderId := none,
                      votedFor := some n.id, wal := w } ∧ Kept n n' ∧
        ∀ request, r = .ok request →
          request = ⟨term, n.id, n.lastLogIndex, n.lastLogTerm⟩ ∧ Persistable n'.log := by
  simp only [startElection, Act.run_bind, Act.run_gets] at h
  rcases hterm : n.currentTerm.checkedAdd 1 with _ | term
  · simp only [hterm, Act.run_fail, Res.fail] at h
    cases h
    exact Or.inl ⟨rfl, _, rfl⟩
  · rw [hterm] at h
    have hlt : n.currentTerm < term := by
      rw [U64.checkedAdd_eq_some] at hterm
      exact Fin.lt_def.2 (by omega)
    simp only [Act.run_bind_ok (Act.run_modify _ n)] at h
    rcases Act.run_bind_cases h with ⟨u, n₁, hp, h⟩ | ⟨e, hp, rfl⟩
    · cases h
      obtain ⟨w, rfl, h2, h3⟩ := persist_spec hs hp rfl
      exact Or.inr ⟨term, w, hlt, rfl, h2, fun request hr => by cases hr; exact ⟨rfl, h3 u rfl⟩⟩
    · obtain ⟨w, rfl, h2, -⟩ := persist_spec hs hp rfl
      exact Or.inr ⟨term, w, hlt, rfl, h2, fun request hr => by cases hr⟩

/-- **`observe_term`** steps down if the term is new. -/
theorem observeTerm_spec {term : U64} {r : Res Unit} (hs : Stores n.wal s)
    (h : (observeTerm term).run n = (r, n')) :
    n' = n ∨ ∃ w, n.currentTerm < term ∧
      n' = { n with currentTerm := term, votedFor := none, role := .follower, leaderId := none,
                    wal := w } ∧ Kept n n' := by
  simp only [observeTerm, Act.run_bind, Act.run_gets] at h
  split_ifs at h with hlt
  · rw [Act.run_bind_ok (Act.run_modify _ n)] at h
    obtain ⟨w, h1, h2, -⟩ := persist_spec hs h rfl
    exact Or.inr ⟨w, hlt, h1, h2⟩
  · cases h
    exact Or.inl rfl

/-- How a node that is not ahead of a vote request deals with it. -/
structure Voted (n n' : RaftNode) (request : RequestVote) (r : Res VoteResponse) : Prop where
  rest : ∃ vote role leaderId w, n' = { n with
    currentTerm := request.term, votedFor := vote, role := role, leaderId := leaderId, wal := w }
  vote : (n.currentTerm < request.term ∧ (n'.votedFor = none ∨ n'.votedFor = some request.candidateId)) ∨
    (n.currentTerm = request.term ∧ (n'.votedFor = n.votedFor ∨
      (n.votedFor = none ∧ n'.votedFor = some request.candidateId)))
  role : n'.role = .leader → n.role = .leader ∧ n.currentTerm = request.term
  kept : Kept n n'
  granted : ∀ response, r = .ok response → response.term = request.term ∧ (response.granted →
    n'.votedFor = some request.candidateId ∧ n.upToDate request ∧
      (Persistable n'.log ∨ (n.currentTerm = request.term ∧ n.votedFor = some request.candidateId)))

theorem stepDown_eq {term : U64} (hle : n.currentTerm ≤ term) :
    ∃ vote role leaderId, n.stepDown term = { n with
      currentTerm := term, votedFor := vote, role := role, leaderId := leaderId } ∧
      ((n.currentTerm < term ∧ vote = none ∧ role = .follower) ∨
        (n.currentTerm = term ∧ vote = n.votedFor ∧ role = n.role ∧ n.stepDown term = n)) := by
  unfold stepDown
  split_ifs with hlt
  · exact ⟨_, _, _, rfl, Or.inl ⟨hlt, rfl, rfl⟩⟩
  · have heq : n.currentTerm = term := le_antisymm hle (not_lt.1 hlt)
    exact ⟨n.votedFor, n.role, n.leaderId, by rw [← heq], Or.inr ⟨heq, rfl, rfl, rfl⟩⟩

/-- A vote that is granted is the vote of the node afterwards. -/
theorem castVote_eq (n : RaftNode) (request : RequestVote) :
    ∃ vote, n.castVote request = { n with votedFor := vote } ∧
      (n.grants request → vote = some request.candidateId ∧ n.upToDate request) ∧
      ((n.newVote request = true ∧ n.votedFor = none ∧ vote = some request.candidateId) ∨
        (n.newVote request = false ∧ vote = n.votedFor)) := by
  unfold castVote
  by_cases hnew : n.newVote request = true
  · rw [if_pos hnew]
    have hnew' := hnew
    simp only [newVote, grants, Bool.and_eq_true, Bool.or_eq_true, Option.isNone_iff_eq_none,
      decide_eq_true_eq] at hnew'
    obtain ⟨⟨hnone | hsome, hup⟩, hne⟩ := hnew'
    · exact ⟨_, rfl, fun _ => ⟨rfl, hup⟩, Or.inl ⟨hnew, hnone, rfl⟩⟩
    · exact absurd hsome hne
  · rw [if_neg hnew]
    refine ⟨_, rfl, fun hg => ?_, Or.inr ⟨by simpa using hnew, rfl⟩⟩
    have hvote : n.votedFor = some request.candidateId := by simpa [newVote, hg] using hnew
    simp only [grants, Bool.and_eq_true] at hg
    exact ⟨hvote, hg.2⟩

/-- **`request_vote`**. -/
theorem requestVote_spec {request : RequestVote} {r : Res VoteResponse} (hs : Stores n.wal s)
    (h : (requestVote request).run n = (r, n')) :
    (n' = n ∧ request.term < n.currentTerm ∧ r = .ok ⟨n.currentTerm, false⟩) ∨ Voted n n' request r := by
  simp only [requestVote, Act.run_bind, Act.run_gets] at h
  split_ifs at h with hlt
  · cases h
    exact Or.inl ⟨rfl, hlt, rfl⟩
  · refine Or.inr ?_
    rw [Act.run_bind_ok (Act.run_modify _ n)] at h
    obtain ⟨vote, role, leaderId, hdown, hcase⟩ := stepDown_eq (not_lt.1 hlt)
    obtain ⟨vote', hcast, hgrant, hnew⟩ := castVote_eq (n.stepDown request.term) request
    have hup : (n.stepDown request.term).upToDate request = n.upToDate request := by
      rw [hdown]; rfl
    have hwal : ((n.stepDown request.term).castVote request).wal = n.wal := by rw [hcast, hdown]
    have hterm : (n.stepDown request.term).currentTerm = request.term := by rw [hdown]
    have hvote : (n.stepDown request.term).votedFor = vote := by rw [hdown]
    rw [hvote] at hnew
    rw [hup] at hgrant
    rw [hterm] at h
    obtain ⟨u, hp⟩ : ∃ u, (persistIf (decide (n.currentTerm < request.term) ||
        (n.stepDown request.term).newVote request)).run ((n.stepDown request.term).castVote request) =
          (u, n') ∧ ∀ response, r = .ok response → (∃ v, u = .ok v) ∧
            response = ⟨request.term, (n.stepDown request.term).grants request⟩ := by
      rcases Act.run_bind_cases h with ⟨u, n₁, hp, h⟩ | ⟨e, hp, rfl⟩
      · cases h
        exact ⟨_, hp, fun response hr => by cases hr; exact ⟨⟨u, rfl⟩, rfl⟩⟩
      · exact ⟨_, hp, fun response hr => (nomatch hr)⟩
    -- nothing is written only if neither the term nor the vote is new
    have hsame : (decide (n.currentTerm < request.term) || (n.stepDown request.term).newVote request) =
        false → n.currentTerm = request.term ∧ vote' = n.votedFor ∧
          (n.stepDown request.term).castVote request = n := by
      intro hb
      rw [Bool.or_eq_false_iff, decide_eq_false_iff_not] at hb
      rcases hcase with ⟨hraise, -⟩ | ⟨heq, hv, -, hsame⟩
      · exact absurd hraise hb.1
      · rcases hnew with ⟨hnew, -⟩ | ⟨-, hv'⟩
        · rw [hb.2] at hnew; cases hnew
        · exact ⟨heq, hv'.trans hv, by rw [castVote, hb.2, hsame]; rfl⟩
    obtain ⟨w, rfl, hkept, hok⟩ := persistIf_spec hs hp.1 hwal fun hb => by rw [(hsame hb).2.2]
    refine ⟨⟨vote', role, leaderId, w, by rw [hcast, hdown]⟩, ?_, ?_, hkept, fun response hr => ?_⟩
    · rw [hcast]
      rcases hcase with ⟨hraise, rfl, -⟩ | ⟨heq, rfl, -⟩
      · exact Or.inl ⟨hraise, hnew.elim (fun h => Or.inr h.2.2) fun h => Or.inl h.2⟩
      · exact Or.inr ⟨heq, hnew.elim (fun h => Or.inr h.2) fun h => Or.inl h.2⟩
    · rw [hcast, hdown]
      intro hrole
      rcases hcase with ⟨-, -, rfl⟩ | ⟨heq, -, rfl, -⟩
      · cases hrole
      · exact ⟨hrole, heq⟩
    · obtain ⟨⟨v, hv⟩, rfl⟩ := hp.2 response hr
      refine ⟨rfl, fun hg => ?_⟩
      obtain ⟨hv', hup'⟩ := hgrant hg
      refine ⟨by rw [hcast]; exact hv', hup', ?_⟩
      rcases hok v hv with hp | hb
      · exact Or.inl hp
      · exact Or.inr ⟨(hsame hb).1, (hsame hb).2.1 ▸ hv'⟩

/-- **The loop of `append_entries`** puts the entries behind the first `index` entries. -/
theorem mergeEntries_spec (entries : List Entry) : ∀ (log : List Entry) (index : ℕ) (changed : Bool),
    index ≤ log.length →
    (mergeEntries log index changed entries).1 = log.take index ++ entries ∧
      ((mergeEntries log index changed entries).2 = false →
        (mergeEntries log index changed entries).1 = log ∧ changed = false) := by
  induction entries with
  | nil =>
    intro log index changed hle
    unfold mergeEntries
    split_ifs with hlt
    · exact ⟨by simp, fun h => (nomatch h)⟩
    · rw [List.take_of_length_le (by omega)]
      exact ⟨by simp, fun h => ⟨rfl, h⟩⟩
  | cons incoming entries ih =>
    intro log index changed hle
    unfold mergeEntries
    split_ifs with hlt hne
    · have hlen : (log.take index ++ [incoming]).length = index + 1 := by simp; omega
      obtain ⟨h1, h2⟩ := ih (log.take index ++ [incoming]) (index + 1) true hlen.ge
      refine ⟨?_, fun h => (nomatch (h2 h).2)⟩
      rw [h1, List.take_of_length_le hlen.le]
      simp
    · obtain ⟨h1, h2⟩ := ih log (index + 1) changed hlt
      refine ⟨?_, h2⟩
      have hget : log[index]? = some incoming := by
        rw [List.getElem?_eq_some_iff]
        exact ⟨hlt, by simpa using hne⟩
      rw [h1, List.take_add_one, hget]
      simp
    · obtain ⟨h1, h2⟩ := ih (log ++ [incoming]) (index + 1) true (by simp; omega)
      refine ⟨?_, fun h => (nomatch (h2 h).2)⟩
      have hidx : index = log.length := by omega
      rw [h1, hidx, List.take_of_length_le (by simp), List.take_length]
      simp

/-- Entries that are in the log change nothing. -/
theorem mergeEntries_repeats {entries : List Entry} : ∀ {log : List Entry} {index : ℕ} (changed : Bool),
    index ≤ log.length → log = log.take index ++ entries →
    mergeEntries log index changed entries = (log, changed) := by
  induction entries with
  | nil =>
    intro log index changed _ hlog
    have hlen := congrArg List.length hlog
    simp only [List.append_nil, List.length_take] at hlen
    rw [mergeEntries, if_neg (by omega)]
  | cons incoming entries ih =>
    intro log index changed hle hlog
    have hlen := congrArg List.length hlog
    simp only [List.length_append, List.length_take, List.length_cons] at hlen
    have hlt : index < log.length := by omega
    have hget : log[index]? = some incoming := by
      rw [hlog, List.getElem?_append_right (by simp)]
      simp [Nat.min_eq_left hle]
    have hget' : log.get ⟨index, hlt⟩ = incoming := by
      rw [List.getElem?_eq_getElem hlt] at hget
      exact Option.some.inj hget
    rw [mergeEntries, dif_pos hlt, if_neg (by simpa using hget')]
    refine ih changed hlt ?_
    rw [List.take_add_one, hget]
    simpa using hlog

/-- The log has an entry that matches the one before the request. -/
def Matches (n : RaftNode) (request : AppendEntries) : Prop :=
  request.prevLogIndex ≤ n.log.length ∧ (0 < request.prevLogIndex →
    ∃ e, n.log[request.prevLogIndex - 1]? = some e ∧ e.term = request.prevLogTerm)

theorem mismatched_spec (n : RaftNode) (request : AppendEntries) :
    (n.mismatched request = .ok true ∧ 0 < request.prevLogIndex ∧ ¬ n.Matches request) ∨
      (n.mismatched request = .ok false ∧ n.Matches request) := by
  unfold mismatched
  split_ifs with hgt hpos
  · refine Or.inl ⟨rfl, by omega, fun hm => ?_⟩
    have := hm.1
    simp only [lastLogIndex] at hgt
    omega
  · have hlt : request.prevLogIndex - 1 < n.log.length := by
      simp only [lastLogIndex] at hgt
      omega
    have hget := List.getElem?_eq_getElem hlt
    simp only [Res.get_of_getElem? hget, Res.ok_bind, Res.pure_eq]
    by_cases hterm : (n.log[request.prevLogIndex - 1]).term = request.prevLogTerm
    · refine Or.inr ⟨by simp [hterm], ?_, fun _ => ⟨_, hget, hterm⟩⟩
      simpa [lastLogIndex] using hgt
    · refine Or.inl ⟨by simp [hterm], hpos, fun hm => ?_⟩
      obtain ⟨e, he, hterm'⟩ := hm.2 hpos
      rw [hget] at he
      cases he
      exact hterm hterm'
  · exact Or.inr ⟨rfl, by simpa [lastLogIndex] using hgt, fun h => absurd h hpos⟩

/-- How a node that is not ahead of an append request deals with it. -/
structure Followed (n n' : RaftNode) (request : AppendEntries) (r : Res AppendResponse) : Prop where
  rest : ∃ vote log commit w, n' = { n with
      currentTerm := request.term, votedFor := vote, log := log, commitIndex := commit,
      role := .follower, leaderId := some request.leaderId, wal := w } ∧
    ((n.currentTerm < request.term ∧ vote = none) ∨
      (request.term = n.currentTerm ∧ vote = n.votedFor))
  kept : Kept n n'
  outcome : (0 < request.prevLogIndex ∧ n'.log = n.log ∧ n'.commitIndex = n.commitIndex ∧
      ∀ response, r = .ok response → response.term = request.term ∧ response.success = false) ∨
    (n.Matches request ∧ n'.log = n.log.take request.prevLogIndex ++ request.entries ∧
      (n'.commitIndex = n.commitIndex ∨
        n.commitIndex < request.leaderCommit ∧ n'.commitIndex = min request.leaderCommit n'.log.length) ∧
      ∀ response, r = .ok response →
        response = ⟨request.term, true, request.prevLogIndex + request.entries.length⟩)

theorem follow_eq {request : AppendEntries} (hle : n.currentTerm ≤ request.term) :
    ∃ vote, n.follow request = { n with currentTerm := request.term, votedFor := vote, role := .follower,
                                        leaderId := some request.leaderId } ∧
      ((n.currentTerm < request.term ∧ vote = none) ∨
        (request.term = n.currentTerm ∧ vote = n.votedFor)) := by
  unfold follow
  by_cases hlt : n.currentTerm < request.term
  · exact ⟨none, by simp only [if_pos hlt], Or.inl ⟨hlt, rfl⟩⟩
  · have heq : request.term = n.currentTerm := le_antisymm (not_lt.1 hlt) hle
    exact ⟨n.votedFor, by simp only [if_neg hlt]; rw [heq], Or.inr ⟨heq, rfl⟩⟩

/-- **`append_entries`**. -/
theorem appendEntries_spec {request : AppendEntries} {r : Res AppendResponse} (hs : Stores n.wal s)
    (h : (appendEntries request).run n = (r, n')) :
    (n' = n ∧ request.term < n.currentTerm ∧ ∃ m, r = .ok ⟨n.currentTerm, false, m⟩) ∨
      Followed n n' request r := by
  rw [appendEntries, Act.run_bind_ok (Act.run_gets _ n)] at h
  by_cases hlt : request.term < n.currentTerm
  · rw [if_pos hlt] at h
    cases h
    exact Or.inl ⟨rfl, hlt, _, rfl⟩
  · rw [if_neg hlt, Act.run_bind_ok (Act.run_modify _ n)] at h
    obtain ⟨vote, hfollow, hvote⟩ := follow_eq (not_lt.1 hlt)
    have hraised : decide (n.currentTerm < request.term) = false → (n.follow request).state = n.state := by
      intro hb
      rw [decide_eq_false_iff_not] at hb
      rcases hvote with ⟨hlt', -⟩ | ⟨heq, rfl⟩
      · exact absurd hlt' hb
      · rw [hfollow, state, state, heq]
    rcases mismatched_spec (n.follow request) request with ⟨hmiss, hpos, -⟩ | ⟨hmiss, hmatch⟩
    · rw [hmiss, Act.run_bind_ok (Act.run_lift _ _), if_pos rfl] at h
      rcases Act.run_bind_cases h with ⟨u, n₁, hp, h⟩ | ⟨e, hp, rfl⟩
      · cases h
        obtain ⟨w, rfl, hkept, -⟩ := persistIf_spec hs hp (by rw [hfollow]) hraised
        rw [hfollow] at hkept ⊢
        exact Or.inr ⟨⟨vote, n.log, n.commitIndex, w, rfl, hvote⟩, hkept,
          Or.inl ⟨hpos, rfl, rfl, fun response hr => by cases hr; exact ⟨rfl, rfl⟩⟩⟩
      · obtain ⟨w, rfl, hkept, -⟩ := persistIf_spec hs hp (by rw [hfollow]) hraised
        rw [hfollow] at hkept ⊢
        exact Or.inr ⟨⟨vote, n.log, n.commitIndex, w, rfl, hvote⟩, hkept,
          Or.inl ⟨hpos, rfl, rfl, fun response hr => (nomatch hr)⟩⟩
    · rw [hmiss, Act.run_bind_ok (Act.run_lift _ _), if_neg (by simp), Act.run_bind_ok (Act.run_modify _ _)] at h
      have hlog : (n.follow request).log = n.log := by rw [hfollow]
      obtain ⟨hmerge, hsame⟩ := mergeEntries_spec request.entries (n.follow request).log
        request.prevLogIndex (decide (n.currentTerm < request.term)) hmatch.1
      rw [hlog] at hmerge hsame
      have hmatch : n.Matches request := by
        rw [Matches, hlog] at hmatch
        exact hmatch
      rw [hlog] at h
      obtain ⟨merged, hm⟩ : ∃ merged, merged = mergeEntries n.log request.prevLogIndex
        (decide (n.currentTerm < request.term)) request.entries := ⟨_, rfl⟩
      rw [← hm] at h hmerge hsame
      have hstate : merged.2 = false → RaftNode.state { n.follow request with log := merged.1 } = n.state := by
        intro hb
        obtain ⟨h1, h2⟩ := hsame hb
        rw [h1, ← hlog]
        exact hraised h2
      rcases Act.run_bind_cases h with ⟨u, n₁, hp, h⟩ | ⟨e, hp, rfl⟩
      · obtain ⟨w, rfl, hkept, -⟩ := persistIf_spec hs hp (by rw [hfollow]) hstate
        rw [Act.run_bind_ok (Act.run_modify _ _)] at h
        cases h
        rw [hfollow] at hkept ⊢
        split_ifs with hc
        · exact Or.inr ⟨⟨vote, _, _, w, rfl, hvote⟩, hkept, Or.inr ⟨hmatch, hmerge, Or.inr ⟨hc, rfl⟩,
            fun response hr => by cases hr; rfl⟩⟩
        · exact Or.inr ⟨⟨vote, _, _, w, rfl, hvote⟩, hkept, Or.inr ⟨hmatch, hmerge, Or.inl rfl,
            fun response hr => by cases hr; rfl⟩⟩
      · obtain ⟨w, rfl, hkept, -⟩ := persistIf_spec hs hp (by rw [hfollow]) hstate
        rw [hfollow] at hkept ⊢
        exact Or.inr ⟨⟨vote, _, _, w, rfl, hvote⟩, hkept, Or.inr ⟨hmatch, hmerge, Or.inl rfl,
          fun response hr => (nomatch hr)⟩⟩

/-- **`append_as_leader`**. -/
theorem appendAsLeader_spec {command : Bytes} {r : Res ℕ} (hs : Stores n.wal s)
    (h : (appendAsLeader command).run n = (r, n')) :
    (n' = n ∧ (∃ e, r = .error e) ∧ n.role ≠ .leader) ∨
      (n.role = .leader ∧ ∃ w, n' = { n with log := n.log ++ [⟨n.currentTerm, command⟩], wal := w } ∧
        Kept n n' ∧ ∀ index, r = .ok index → index = n.log.length + 1 ∧ Persistable n'.log) := by
  rw [appendAsLeader, Act.run_bind_ok (Act.run_gets _ n)] at h
  by_cases hrole : n.role = .leader
  · rw [if_neg (by simpa using hrole), Act.run_bind_ok (Act.run_modify _ n)] at h
    refine Or.inr ⟨hrole, ?_⟩
    rcases Act.run_bind_cases h with ⟨u, n₁, hp, h⟩ | ⟨e, hp, rfl⟩
    · obtain ⟨w, rfl, hkept, hok⟩ := persist_spec hs hp rfl
      cases h
      exact ⟨w, rfl, hkept, fun index hr => by cases hr; exact ⟨by simp [lastLogIndex], hok u rfl⟩⟩
    · obtain ⟨w, rfl, hkept, -⟩ := persist_spec hs hp rfl
      exact ⟨w, rfl, hkept, fun index hr => (nomatch hr)⟩
  · rw [if_pos hrole] at h
    cases h
    exact Or.inl ⟨rfl, ⟨_, rfl⟩, hrole⟩

/-- **`advance_commit`** moves the commit index to an entry of the current term with enough copies. -/
theorem advanceCommit_spec (n : RaftNode) (replicated : List ℕ) :
    n.advanceCommit replicated = n ∨
      ∃ i, n.commitIndex < i ∧ i ≤ n.log.length ∧ n.advanceCommit replicated = { n with commitIndex := i } ∧
        n.canCommit replicated i = true := by
  unfold advanceCommit
  split_ifs with hrole
  · exact Or.inl rfl
  · dsimp only
    rcases hfind : ((List.range' (n.commitIndex + 1) (n.lastLogIndex - n.commitIndex)).reverse.find?
        fun candidate => n.canCommit replicated candidate) with _ | i
    · exact Or.inl rfl
    · have hmem := List.mem_of_find?_eq_some hfind
      rw [List.mem_reverse, List.mem_range'_1] at hmem
      simp only [lastLogIndex] at hmem
      refine Or.inr ⟨i, by omega, by omega, rfl, ?_⟩
      simpa using List.find?_some hfind

theorem mapM_get_range' (log : List Entry) : ∀ (k a : ℕ), a + k ≤ log.length →
    (List.range' a k).mapM (Res.get log) = .ok ((log.drop a).take k)
  | 0, a, _ => by simp
  | k + 1, a, h => by
    have hlt : a < log.length := by omega
    rw [List.range'_succ, List.mapM_cons, Res.get_of_getElem? (List.getElem?_eq_getElem hlt),
      Res.ok_bind, mapM_get_range' log k (a + 1) (by omega), Res.ok_bind, Res.pure_eq,
      List.drop_eq_getElem_cons hlt, List.take_succ_cons]

/-- **`take_applied`** hands out the entries between the two indices. -/
theorem takeApplied_spec (hle : n.lastApplied ≤ n.commitIndex) (hlen : n.commitIndex ≤ n.log.length) :
    ∃ entries, n.takeApplied = .ok (entries, { n with lastApplied := n.commitIndex }) ∧
      n.log.take n.commitIndex = n.log.take n.lastApplied ++ entries := by
  refine ⟨(n.log.drop n.lastApplied).take (n.commitIndex - n.lastApplied), ?_, ?_⟩
  · rw [takeApplied, mapM_get_range' n.log _ _ (by omega), Res.ok_bind, Res.pure_eq, Nat.max_eq_right hle]
  · rw [List.take_drop, Nat.add_sub_cancel' hle]
    nth_rewrite 1 [← List.take_append_drop n.lastApplied (n.log.take n.commitIndex)]
    rw [List.take_take, Nat.min_eq_left hle]

/-- A log file that holds a state opens with it. -/
theorem openNode_stores (id seed : U64) {file : Option Bytes} (hs : Stores (file.getD []) s) :
    ∃ timeout, openNode id file seed = .ok
      { id := id, wal := file.getD [], currentTerm := s.currentTerm, votedFor := s.votedFor, log := s.log,
        electionTimeoutMs := timeout } := by
  have hload : loadState (Wal.replayPath file).records = .ok s ∧
      (Wal.replayPath file).truncated = false := by
    cases file with
    | none => exact hs.load
    | some file => exact hs.load
  refine ⟨150 + (mix (UInt64.ofNat seed.val ^^^ UInt64.ofNat id.val)).toNat % 151, ?_⟩
  simp only [openNode, hload.1, hload.2, Res.ok_bind, Res.pure_eq]
  rfl

/-- A node that is opened has the state of its repaired log file. -/
theorem openNode_ok {id seed : U64} {file : Option Bytes} (h : openNode id file seed = .ok n) :
    ∃ ps tail, (∀ p ∈ ps, Wal.Fits p) ∧ ¬ Wal.StartsWithFrame tail ∧ file.getD [] = Wal.frames ps ++ tail ∧
      n.wal = Wal.frames ps ∧ loadState ps = .ok n.state ∧ n.id = id := by
  obtain ⟨ps, tail, hfit, htail, hb⟩ := Wal.exists_frames _ (file.getD []) le_rfl
  have hreplay : Wal.replayPath file = Wal.replay (file.getD []) := by
    cases file with
    | none => rfl
    | some file => rfl
  rw [openNode, hreplay, hb, Wal.replay_eq hfit htail, Res.bind_eq_ok] at h
  obtain ⟨s, hs, h⟩ := h
  cases h
  refine ⟨ps, tail, hfit, htail, hb, ?_, hs, rfl⟩
  by_cases ht : tail = []
  · simp [ht]
  · simp [ht]

theorem openNode_stored {id seed : U64} {file : Option Bytes} (h : openNode id file seed = .ok n) :
    Stores n.wal n.state := by
  obtain ⟨ps, -, hfit, -, -, hw, hs, -⟩ := openNode_ok h
  exact ⟨ps, hfit, hw, hs⟩

end RaftNode

end Raft

end NutDb
