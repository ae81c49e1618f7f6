/-
  A Raft node whose `persist` fails.

  The handlers below are those of `Node.lean` with a `persist` that may return an
  error and leave the log file as it was; the node keeps what was changed in
  memory.  A request that finds its vote or its entries in memory is then answered
  without another write, which is the only way to answer ahead of the log file
  (`durable_iff_careful`).
-/
import NutDb.Raft.NodeSpec
import NutDb.Lib.Trace

namespace NutDb

open Lib

namespace Raft

namespace RaftNode

/-- `persist`, which may fail. -/
def persistOr (fault : Option IoError) : Act RaftNode Unit :=
  match fault with
  | some e => Act.lift (.error (.io e))
  | none => persist

/-- `if changed { self.persist()? }`. -/
def persistIfOr (fault : Option IoError) (changed : Bool) : Act RaftNode Unit :=
  if changed then persistOr fault else pure ()

/-- `request_vote`. -/
def requestVoteOr (fault : Option IoError) (request : RequestVote) : Act RaftNode VoteResponse := do
  let n ← Act.gets fun n => n
  if request.term < n.currentTerm then return ⟨n.currentTerm, false⟩
  else do
    let n₁ := n.stepDown request.term
    Act.modify fun _ => n₁.castVote request
    persistIfOr fault (decide (n.currentTerm < request.term) || n₁.newVote request)
    return ⟨n₁.currentTerm, n₁.grants request⟩

/-- `append_entries`. -/
def appendEntriesOr (fault : Option IoError) (request : AppendEntries) : Act RaftNode AppendResponse := do
  let n ← Act.gets fun n => n
  if request.term < n.currentTerm then return ⟨n.currentTerm, false, n.lastLogIndex⟩
  else do
    let raised := decide (n.currentTerm < request.term)
    let n₁ := n.follow request
    Act.modify fun _ => n₁
    let missing ← Act.lift (n₁.mismatched request)
    if missing then do
      persistIfOr fault raised
      return ⟨n₁.currentTerm, false, n₁.lastLogIndex⟩
    else do
      let merged := mergeEntries n₁.log request.prevLogIndex raised request.entries
      Act.modify fun n => { n with log := merged.1 }
      persistIfOr fault merged.2
      Act.modify fun n =>
        if request.leaderCommit > n.commitIndex then
          { n with commitIndex := min request.leaderCommit n.lastLogIndex } else n
      return ⟨n₁.currentTerm, true, request.prevLogIndex + request.entries.length⟩

/-- **Without errors** the handlers are those of the node. -/
theorem requestVoteOr_sound (request : RequestVote) : requestVoteOr none request = requestVote request := rfl

theorem appendEntriesOr_sound (request : AppendEntries) :
    appendEntriesOr none request = appendEntries request := rfl

/-! ## What handlers write -/

/-- How a handler leaves the log file: it appends the state, or it writes nothing, and then it fails
    or the state is as before. -/
def Saved {α : Type} (n n' : RaftNode) (r : Res α) : Prop :=
  (∃ p, n'.state.encode = .ok p ∧ Wal.Fits p ∧ n'.wal = n.wal ++ Wal.frame p) ∨
    (n'.wal = n.wal ∧ (n'.state = n.state ∨ ∃ e, r = .error e))

section Saved
variable {α : Type} {n n₁ n' : RaftNode} {fault : Option IoError} {r : Res α}

theorem Saved.refl (n : RaftNode) (r : Res α) : Saved n n r := Or.inr ⟨rfl, Or.inl rfl⟩

theorem persistOr_run (fault : Option IoError) (n : RaftNode) :
    (∃ p, persistOr fault n = (.ok (), { n with wal := n.wal ++ Wal.frame p }) ∧
      n.state.encode = .ok p ∧ Wal.Fits p) ∨ ∃ e, persistOr fault n = (.error e, n) := by
  cases fault with
  | some e => exact Or.inr ⟨_, rfl⟩
  | none =>
    show (∃ p, persist.run n = _ ∧ _) ∨ ∃ e, persist.run n = _
    rcases he : n.state.encode with e | p
    · exact Or.inr ⟨e, by simp [persist, Act.run_bind, he]⟩
    · by_cases hfit : Wal.Fits p
      · refine Or.inl ⟨p, ?_, rfl, hfit⟩
        simp [persist, Act.run_bind, he, Wal.append_of_fits hfit]
      · refine Or.inr ⟨.io ⟨.invalidInput, "wal: record exceeds 4 GiB"⟩, ?_⟩
        simp [persist, Act.run_bind, he, Wal.append, hfit, Res.fail]

/-- Nothing but the log file is changed. -/
theorem persistIfOr_memory {b : Bool} {u : Res Unit} (h : (persistIfOr fault b).run n = (u, n')) :
    ∃ w, n' = { n with wal := w } := by
  unfold persistIfOr at h
  split_ifs at h
  · rcases persistOr_run fault n with ⟨p, hrun, -⟩ | ⟨e, hrun⟩
    · cases hrun.symm.trans h
      exact ⟨_, rfl⟩
    · cases hrun.symm.trans h
      exact ⟨_, rfl⟩
  · cases h
    exact ⟨_, rfl⟩

/-- A handler that changes a node in memory, writes it if the persistent state has changed, and goes
    on with code that changes neither. -/
theorem saved_of_persistIf (fault : Option IoError) (b : Bool) {rest : Unit → Act RaftNode α}
    (h : (persistIfOr fault b >>= rest).run n₁ = (r, n')) (hwal : n₁.wal = n.wal)
    (hb : b = false → n₁.state = n.state)
    (hrest : ∀ m, ((rest ()).run m).2.wal = m.wal ∧ ((rest ()).run m).2.state = m.state) :
    Saved n n' r := by
  rcases Act.run_bind_cases h with ⟨⟨⟩, m, hp, h⟩ | ⟨e, hp, rfl⟩
  · obtain ⟨hw, hs⟩ := hrest m
    rw [h] at hw hs
    unfold persistIfOr at hp
    split_ifs at hp with hb'
    · rcases persistOr_run fault n₁ with ⟨p, hrun, he, hfit⟩ | ⟨e, hrun⟩
      · cases hrun.symm.trans hp
        refine Or.inl ⟨p, hs ▸ he, hfit, ?_⟩
        rw [hw, hwal]
      · cases hrun.symm.trans hp
    · cases hp
      exact Or.inr ⟨hw.trans hwal, Or.inl (hs.trans (hb (by simpa using hb')))⟩
  · refine Or.inr ⟨?_, Or.inr ⟨e, rfl⟩⟩
    unfold persistIfOr at hp
    split_ifs at hp with hb'
    · rcases persistOr_run fault n₁ with ⟨p, hrun, -⟩ | ⟨e, hrun⟩
      · cases hrun.symm.trans hp
      · cases hrun.symm.trans hp
        exact hwal
    · cases hp

/-- What `request_vote` does to a node that is not ahead of the request. -/
theorem requestVoteOr_spec {request : RequestVote} {r : Res VoteResponse}
    (h : (requestVoteOr fault request).run n = (r, n')) :
    (n' = n ∧ request.term < n.currentTerm ∧ r = .ok ⟨n.currentTerm, false⟩) ∨
      (n.currentTerm ≤ request.term ∧ Saved n n' r ∧
        (∃ w, n' = { (n.stepDown request.term).castVote request with wal := w }) ∧
        ∀ response, r = .ok response →
          response = ⟨request.term, (n.stepDown request.term).grants request⟩) := by
  rw [requestVoteOr, Act.run_bind_ok (Act.run_gets _ n)] at h
  by_cases hlt : request.term < n.currentTerm
  · rw [if_pos hlt] at h
    cases h
    exact Or.inl ⟨rfl, hlt, rfl⟩
  · rw [if_neg hlt, Act.run_bind_ok (Act.run_modify _ n)] at h
    obtain ⟨vote, role, leaderId, hdown, hcase⟩ := stepDown_eq (not_lt.1 hlt)
    obtain ⟨vote', hcast, -, hnew⟩ := castVote_eq (n.stepDown request.term) request
    have hterm : (n.stepDown request.term).currentTerm = request.term := by rw [hdown]
    rw [hterm] at h
    refine Or.inr ⟨not_lt.1 hlt, ?_, ?_⟩
    · refine saved_of_persistIf _ _ h (by rw [hcast, hdown]) (fun hb => ?_) fun m => ⟨rfl, rfl⟩
      rw [Bool.or_eq_false_iff, decide_eq_false_iff_not] at hb
      rcases hcase with ⟨hraise, -⟩ | ⟨-, -, -, hsame⟩
      · exact absurd hraise hb.1
      · rw [castVote, hb.2, hsame]
        rfl
    · rcases Act.run_bind_cases h with ⟨⟨⟩, m, hp, h⟩ | ⟨e, hp, rfl⟩
      · cases h
        exact ⟨persistIfOr_memory hp, fun response hr => by cases hr; rfl⟩
      · exact ⟨persistIfOr_memory hp, fun response hr => by cases hr⟩

/-- How `append_entries` leaves a node that is not ahead of the request. -/
structure FollowedOr (n n' : RaftNode) (request : AppendEntries) (r : Res AppendResponse) : Prop where
  term : n'.currentTerm = request.term
  vote : n'.votedFor = (n.follow request).votedFor
  saved : Saved n n' r
  outcome : (¬ n.Matches request ∧ n'.log = n.log ∧ ∀ response, r = .ok response → response.success = false) ∨
    (n.Matches request ∧ n'.log = n.log.take request.prevLogIndex ++ request.entries ∧
      ∀ response, r = .ok response →
        response = ⟨request.term, true, request.prevLogIndex + request.entries.length⟩)

/-- What `append_entries` does. -/
theorem appendEntriesOr_spec {request : AppendEntries} {r : Res AppendResponse}
    (h : (appendEntriesOr fault request).run n = (r, n')) :
    (n' = n ∧ request.term < n.currentTerm ∧ ∃ m, r = .ok ⟨n.currentTerm, false, m⟩) ∨
      (n.currentTerm ≤ request.term ∧ FollowedOr n n' request r) := by
  rw [appendEntriesOr, Act.run_bind_ok (Act.run_gets _ n)] at h
  by_cases hlt : request.term < n.currentTerm
  · rw [if_pos hlt] at h
    cases h
    exact Or.inl ⟨rfl, hlt, _, rfl⟩
  · rw [if_neg hlt, Act.run_bind_ok (Act.run_modify _ n)] at h
    refine Or.inr ⟨not_lt.1 hlt, ?_⟩
    obtain ⟨vote, hfollow, hvote⟩ := follow_eq (not_lt.1 hlt)
    have hterm : (n.follow request).currentTerm = request.term := by rw [hfollow]
    have hlog : (n.follow request).log = n.log := by rw [hfollow]
    have hraised : decide (n.currentTerm < request.term) = false → (n.follow request).state = n.state := by
      intro hb
      rw [decide_eq_false_iff_not] at hb
      rcases hvote with ⟨hlt', -⟩ | ⟨heq, rfl⟩
      · exact absurd hlt' hb
      · rw [hfollow, state, state, heq]
    rcases mismatched_spec (n.follow request) request with ⟨hmiss, -, hno⟩ | ⟨hmiss, hmatch⟩
    · have hno : ¬ n.Matches request := by
        rw [Matches, hlog] at hno
        exact hno
      rw [hmiss, Act.run_bind_ok (Act.run_lift _ _), if_pos rfl] at h
      have hsaved : Saved n n' r := saved_of_persistIf _ _ h (by rw [hfollow]) hraised fun m => ⟨rfl, rfl⟩
      rcases Act.run_bind_cases h with ⟨⟨⟩, m, hp, h⟩ | ⟨e, hp, rfl⟩
      · obtain ⟨w, rfl⟩ := persistIfOr_memory hp
        cases h
        exact ⟨hterm, rfl, hsaved, Or.inl ⟨hno, hlog, fun response hr => by cases hr; rfl⟩⟩
      · obtain ⟨w, rfl⟩ := persistIfOr_memory hp
        exact ⟨hterm, rfl, hsaved, Or.inl ⟨hno, hlog, fun response hr => by cases hr⟩⟩
    · rw [hmiss, Act.run_bind_ok (Act.run_lift _ _), if_neg (by simp), Act.run_bind_ok (Act.run_modify _ _)] at h
      obtain ⟨hmerge, hsame⟩ := mergeEntries_spec request.entries (n.follow request).log
        request.prevLogIndex (decide (n.currentTerm < request.term)) hmatch.1
      have hsaved : Saved n n' r := by
        refine saved_of_persistIf _ _ h (by rw [hfollow]) (fun hb => ?_) fun m => ?_
        · rw [state, (hsame hb).1]
          exact hraised (hsame hb).2
        · rw [Act.run_bind_ok (Act.run_modify _ _), Act.run_pure]
          dsimp only
          split_ifs
          · exact ⟨rfl, rfl⟩
          · exact ⟨rfl, rfl⟩
      rw [hlog] at hmerge
      have hmatch : n.Matches request := by
        rw [Matches, hlog] at hmatch
        exact hmatch
      rcases Act.run_bind_cases h with ⟨⟨⟩, m, hp, h⟩ | ⟨e, hp, rfl⟩
      · obtain ⟨w, rfl⟩ := persistIfOr_memory hp
        rw [Act.run_bind_ok (Act.run_modify _ _), Act.run_pure] at h
        cases h
        refine ⟨?_, ?_, hsaved, Or.inr ⟨hmatch, ?_, fun response hr => by cases hr; rw [hterm]⟩⟩
        · split_ifs
          · exact hterm
          · exact hterm
        · split_ifs
          · rfl
          · rfl
        · rw [← hmerge, ← hlog]
          split_ifs
          · rfl
          · rfl
      · obtain ⟨w, rfl⟩ := persistIfOr_memory hp
        refine ⟨hterm, rfl, hsaved, Or.inr ⟨hmatch, ?_, fun response hr => by cases hr⟩⟩
        rw [← hmerge, ← hlog]

end Saved

/-! ## Requests that are answered from memory -/

/-- A vote request of the current term by the candidate that the node has voted for. -/
def repeatsVote (n : RaftNode) (request : RequestVote) : Prop :=
  request.term = n.currentTerm ∧ n.votedFor = some request.candidateId ∧ n.upToDate request = true

/-- An append request of the current term with which the log ends already. -/
def repeatsAppend (n : RaftNode) (request : AppendEntries) : Prop :=
  request.term = n.currentTerm ∧ n.Matches request ∧
    n.log = n.log.take request.prevLogIndex ++ request.entries

section Repeats
variable {n : RaftNode}

/-- The vote is granted without a write. -/
theorem requestVoteOr_repeats {request : RequestVote} (fault : Option IoError) (h : n.repeatsVote request) :
    (requestVoteOr fault request).run n = (.ok ⟨n.currentTerm, true⟩, n) := by
  obtain ⟨hterm, hvote, hup⟩ := h
  have hlt : ¬ n.currentTerm < request.term := by rw [hterm]; exact lt_irrefl _
  have hdown : n.stepDown request.term = n := by rw [stepDown, if_neg hlt]
  have hgrants : n.grants request = true := by simp [grants, hvote, hup]
  have hnew : n.newVote request = false := by simp [newVote, hvote]
  have hcast : n.castVote request = n := by rw [castVote, hnew]; rfl
  rw [requestVoteOr, Act.run_bind_ok (Act.run_gets _ n), if_neg (by rw [hterm]; exact lt_irrefl _),
    Act.run_bind_ok (Act.run_modify _ n), hdown, hcast, hnew, decide_eq_false hlt, hgrants]
  rfl

/-- The entries are acknowledged without a write. -/
theorem appendEntriesOr_repeats {request : AppendEntries} (fault : Option IoError)
    (h : n.repeatsAppend request) : ∃ n', (appendEntriesOr fault request).run n =
      (.ok ⟨n.currentTerm, true, n.log.length⟩, n') ∧ n'.wal = n.wal ∧ n'.log = n.log := by
  obtain ⟨hterm, hmatch, hlog⟩ := h
  have hlt : ¬ n.currentTerm < request.term := by rw [hterm]; exact lt_irrefl _
  obtain ⟨vote, hfollow, hvote⟩ := follow_eq (not_lt.1 (show ¬ request.term < n.currentTerm by
    rw [hterm]; exact lt_irrefl _))
  have hlen : request.prevLogIndex + request.entries.length = n.log.length := by
    have hlen := congrArg List.length hlog
    have hle := hmatch.1
    simp only [List.length_append, List.length_take] at hlen
    omega
  have hlog' : (n.follow request).log = n.log := by rw [hfollow]
  have hterm' : (n.follow request).currentTerm = n.currentTerm := by rw [hfollow, hterm]
  have hwal : (n.follow request).wal = n.wal := by rw [hfollow]
  have hmerge := mergeEntries_repeats (decide (n.currentTerm < request.term)) hmatch.1 hlog
  have hmiss : (n.follow request).mismatched request = .ok false := by
    rcases mismatched_spec (n.follow request) request with ⟨hmiss, hpos, -⟩ | ⟨hmiss, -⟩
    · obtain ⟨e, he, heq⟩ := hmatch.2 hpos
      have hle := hmatch.1
      rw [mismatched, hlog', if_neg (by simp [lastLogIndex, hlog']; omega), if_pos hpos,
        Res.get_of_getElem? he]
      simp [heq]
    · exact hmiss
  rw [appendEntriesOr, Act.run_bind_ok (Act.run_gets _ n), if_neg (by rw [hterm]; exact lt_irrefl _),
    Act.run_bind_ok (Act.run_modify _ n), hmiss, Act.run_bind_ok (Act.run_lift _ _), if_neg (by simp),
    Act.run_bind_ok (Act.run_modify _ _), hlog', hmerge, decide_eq_false hlt, persistIfOr, if_neg (by simp),
    Act.run_bind_ok (Act.run_pure _ _), Act.run_bind_ok (Act.run_modify _ _), Act.run_pure, hlen, hterm']
  refine ⟨_, rfl, ?_, ?_⟩
  · split_ifs
    · exact hwal
    · exact hwal
  · split_ifs
    · rfl
    · rfl

end Repeats

/-! ## Runs -/

/-- The requests of the other nodes. -/
inductive Request where
  | vote (request : RequestVote)
  | append (request : AppendEntries)
  deriving DecidableEq, Repr

/-- What a node answers. -/
inductive Response where
  | vote (response : VoteResponse)
  | append (response : AppendResponse)
  deriving DecidableEq, Repr

/-- What a node does with a request when `persist` may fail. -/
def Request.handle (fault : Option IoError) : Request → Act RaftNode Response
  | .vote request => do
    let response ← requestVoteOr fault request
    return .vote response
  | .append request => do
    let response ← appendEntriesOr fault request
    return .append response

/-- A request, how `persist` fails, and the answer. -/
structure FaultLabel where
  request : Request
  fault : Option IoError
  result : Res Response
  deriving DecidableEq

/-- The steps of a node. -/
inductive FaultStep : RaftNode → FaultLabel → RaftNode → Prop
  | handled {n n' : RaftNode} {r : Res Response} (request : Request) (fault : Option IoError) :
      (request.handle fault).run n = (r, n') → FaultStep n ⟨request, fault, r⟩ n'

/-- The state records what the answer says: the term and the vote, or the term and the entries of the
    log up to `match_index`. -/
def Records (s : PersistentState) (log : List Entry) : Request → Response → Prop
  | .vote request, .vote response => response.granted = true →
    s.currentTerm = response.term ∧ s.votedFor = some request.candidateId
  | .append _, .append response => response.success = true →
    s.currentTerm = response.term ∧ log.take response.matchIndex <+: s.log
  | _, _ => True

/-- The answer of a node is not ahead of its log file. -/
def Answered (n : RaftNode) (l : FaultLabel) : Prop := ∀ response n',
  (l.request.handle l.fault).run n = (.ok response, n') →
    Records (stored n'.wal) n'.log l.request response

/-- The request finds in memory what it asks for, and the log file does not have it. -/
def Ahead (n : RaftNode) : Request → Prop
  | .vote request => n.repeatsVote request ∧
    ¬ ((stored n.wal).currentTerm = n.currentTerm ∧ (stored n.wal).votedFor = n.votedFor)
  | .append request => n.repeatsAppend request ∧
    ¬ ((stored n.wal).currentTerm = n.currentTerm ∧ n.log <+: (stored n.wal).log)

section Runs
variable {α : Type} {n n' : RaftNode} {fault : Option IoError} {s : PersistentState}

theorem Saved.map {r : Res α} {β : Type} {r' : Res β} (h : Saved n n' r)
    (hr : ∀ e, r = .error e → r' = .error e) : Saved n n' r' := by
  rcases h with h | ⟨hw, hs | ⟨e, he⟩⟩
  · exact Or.inl h
  · exact Or.inr ⟨hw, Or.inl hs⟩
  · exact Or.inr ⟨hw, Or.inr ⟨e, hr e he⟩⟩

theorem Saved.stores {r : Res α} (h : Saved n n' r) (hs : Stores n.wal s) :
    Stores n'.wal n'.state ∨ (n'.wal = n.wal ∧ (n'.state = n.state ∨ ∃ e, r = .error e)) := by
  rcases h with ⟨p, he, hfit, hw⟩ | h
  · rw [hw]
    exact Or.inl (hs.append he hfit)
  · exact Or.inr h

theorem Saved.exists_stores {r : Res α} (h : Saved n n' r) (hs : Stores n.wal s) : ∃ s', Stores n'.wal s' := by
  rcases h.stores hs with hst | ⟨hw, -⟩
  · exact ⟨_, hst⟩
  · exact ⟨s, by rw [hw]; exact hs⟩

/-- A request is handled by its handler. -/
theorem handle_eq {β : Type} {x : Act RaftNode α} {f : α → β} {r : Res β}
    (h : (do let response ← x; return f response : Act RaftNode β).run n = (r, n')) :
    ∃ r', x.run n = (r', n') ∧ (∀ b, r = .ok b → ∃ a, r' = .ok a ∧ b = f a) ∧
      ∀ e, r' = .error e → r = .error e := by
  rcases Act.run_bind_cases h with ⟨a, m, hx, h⟩ | ⟨e, hx, rfl⟩
  · cases h
    exact ⟨_, hx, fun response hr => by cases hr; exact ⟨a, rfl, rfl⟩, fun e he => (nomatch he)⟩
  · exact ⟨_, hx, fun response hr => (nomatch hr), fun e' he => by cases he; rfl⟩

theorem handle_saved {request : Request} {r : Res Response}
    (h : (request.handle fault).run n = (r, n')) : Saved n n' r := by
  cases request with
  | vote request =>
    obtain ⟨r', hrun, -, herr⟩ := handle_eq h
    rcases requestVoteOr_spec hrun with ⟨rfl, -⟩ | ⟨-, hsaved, -⟩
    · exact Saved.refl _ _
    · exact hsaved.map herr
  | append request =>
    obtain ⟨r', hrun, -, herr⟩ := handle_eq h
    rcases appendEntriesOr_spec hrun with ⟨rfl, -⟩ | ⟨-, hf⟩
    · exact Saved.refl _ _
    · exact hf.saved.map herr

theorem answered_vote {request : RequestVote} {r : Res Response} (hs : Stores n.wal s) :
    Answered n ⟨.vote request, fault, r⟩ ↔ ¬ Ahead n (.vote request) := by
  constructor
  · rintro h ⟨hrep, hbad⟩
    have hrun := requestVoteOr_repeats fault hrep
    have hrec := h (.vote ⟨n.currentTerm, true⟩) n (by rw [Request.handle, Act.run_bind_ok hrun]; rfl) rfl
    exact hbad ⟨hrec.1, hrec.2.trans hrep.2.1.symm⟩
  · intro hahead response n' hrun
    obtain ⟨r', hrun', hok, -⟩ := handle_eq hrun
    obtain ⟨a, rfl, rfl⟩ := hok response rfl
    intro hg
    rcases requestVoteOr_spec hrun' with ⟨-, -, hr⟩ | ⟨hle, hsaved, ⟨w, hn'⟩, hr⟩
    · cases hr
      cases hg
    · have ha := hr a rfl
      obtain ⟨vote, role, leaderId, hdown, hcase⟩ := stepDown_eq hle
      obtain ⟨vote', hcast, hgrant, hnew⟩ := castVote_eq (n.stepDown request.term) request
      rw [ha] at hg ⊢
      obtain ⟨rfl, hup⟩ := hgrant hg
      have hterm : n'.currentTerm = request.term := by rw [hn', hcast, hdown]
      have hvote : n'.votedFor = some request.candidateId := by rw [hn', hcast]
      have hup : n.upToDate request = true := by rw [hdown] at hup; exact hup
      rcases hsaved.stores hs with hst | ⟨hw, hsame | ⟨e, he⟩⟩
      · rw [hst.stored]
        exact ⟨hterm, hvote⟩
      · -- nothing was written, so the vote was in memory before
        have h1 : n'.currentTerm = n.currentTerm := congrArg PersistentState.currentTerm hsame
        have h2 : n'.votedFor = n.votedFor := congrArg PersistentState.votedFor hsame
        have hrec := not_not.1 fun hbad =>
          hahead ⟨⟨hterm.symm.trans h1, h2.symm.trans hvote, hup⟩, hbad⟩
        rw [hw]
        exact ⟨hrec.1.trans (h1.symm.trans hterm), hrec.2.trans (h2.symm.trans hvote)⟩
      · cases he

theorem answered_append {request : AppendEntries} {r : Res Response} (hs : Stores n.wal s) :
    Answered n ⟨.append request, fault, r⟩ ↔ ¬ Ahead n (.append request) := by
  constructor
  · rintro h ⟨hrep, hbad⟩
    obtain ⟨n', hrun, hw, hlog⟩ := appendEntriesOr_repeats fault hrep
    have hrec := h (.append ⟨n.currentTerm, true, n.log.length⟩) n'
      (by rw [Request.handle, Act.run_bind_ok hrun]; rfl) rfl
    rw [hw, hlog, List.take_length] at hrec
    exact hbad hrec
  · intro hahead response n' hrun
    obtain ⟨r', hrun', hok, -⟩ := handle_eq hrun
    obtain ⟨a, rfl, rfl⟩ := hok response rfl
    intro hg
    rcases appendEntriesOr_spec hrun' with ⟨-, -, m, hr⟩ | ⟨hle, hf⟩
    · cases hr
      cases hg
    · rcases hf.outcome with ⟨-, -, hr⟩ | ⟨hmatch, hlog, hr⟩
      · rw [hr a rfl] at hg
        cases hg
      · rw [hr a rfl]
        rcases hf.saved.stores hs with hst | ⟨hw, hsame | ⟨e, he⟩⟩
        · rw [hst.stored]
          exact ⟨hf.term, List.take_prefix _ _⟩
        · -- nothing was written, so the entries were in memory before
          have h1 : n'.currentTerm = n.currentTerm := congrArg PersistentState.currentTerm hsame
          have h2 : n'.log = n.log := congrArg PersistentState.log hsame
          have hrec := not_not.1 fun hbad =>
            hahead ⟨⟨hf.term.symm.trans h1, hmatch, h2.symm.trans hlog⟩, hbad⟩
          rw [hw]
          refine ⟨hrec.1.trans (h1.symm.trans hf.term), (List.take_prefix _ _).trans ?_⟩
          rw [h2]
          exact hrec.2
        · cases he

/-- **One request.** -/
theorem answered_iff {l : FaultLabel} (hs : Stores n.wal s) : Answered n l ↔ ¬ Ahead n l.request := by
  obtain ⟨request, fault, r⟩ := l
  cases request with
  | vote request => exact answered_vote hs
  | append request => exact answered_append hs

/-- The log file of a node can be opened in every run. -/
theorem stores_run {steps : List (RaftNode × FaultLabel)} {n₀ : RaftNode} (hs : Stores n₀.wal s)
    (hrun : Trace FaultStep n₀ steps n) :
    (∃ s', Stores n.wal s') ∧ ∀ step ∈ steps, ∃ s', Stores step.1.wal s' := by
  induction hrun with
  | refl => exact ⟨⟨s, hs⟩, by simp⟩
  | step _ hstep ih =>
    obtain ⟨⟨s', hs'⟩, hall⟩ := ih
    refine ⟨?_, ?_⟩
    · cases hstep with
      | handled request fault h => exact (handle_saved h).exists_stores hs'
    · intro step hmem
      rcases List.mem_cons.1 hmem with rfl | hmem
      · exact ⟨s', hs'⟩
      · exact hall step hmem

end Runs

/-- **Answers are not ahead of the log file**, in every run from a node that was opened, if and only
    if no request finds in memory what the log file does not have. -/
theorem durable_iff_careful {id seed : U64} {file : Option Bytes} {n₀ n : RaftNode}
    {steps : List (RaftNode × FaultLabel)} (hopen : openNode id file seed = .ok n₀)
    (hrun : Trace FaultStep n₀ steps n) :
    (∀ step ∈ steps, Answered step.1 step.2) ↔ ∀ step ∈ steps, ¬ Ahead step.1 step.2.request := by
  have hstores := (stores_run (openNode_stored hopen) hrun).2
  constructor
  · intro h step hmem
    obtain ⟨s, hs⟩ := hstores step hmem
    exact (answered_iff hs).1 (h step hmem)
  · intro h step hmem
    obtain ⟨s, hs⟩ := hstores step hmem
    exact (answered_iff hs).2 (h step hmem)

/-- The error of a disk. -/
def diskError : IoError := ⟨.other, "input/output error"⟩

/-- A new node, and the node after its `persist` has failed in a vote for node 2 in term 1. -/
def newNode : RaftNode :=
  { id := 1, wal := [], currentTerm := 0, votedFor := none, log := [], electionTimeoutMs := 225 }

def unsavedNode : RaftNode := { newNode with currentTerm := 1, votedFor := some 2 }

theorem openNode_newNode : openNode 1 none 0 = .ok newNode := by decide +kernel

theorem vote_fails : FaultStep newNode
    ⟨.vote ⟨1, 2, 0, 0⟩, some diskError, .error (.io diskError)⟩ unsavedNode := .handled _ _ rfl

/-- After the failed `persist`, a vote in the next term is on disk when it is granted. -/
theorem durable_iff_careful_next : ∃ steps n, Trace FaultStep newNode steps n ∧
    steps.map (fun step => step.2.result) = [.ok (.vote ⟨2, true⟩), .error (.io diskError)] ∧
    ∀ step ∈ steps, Answered step.1 step.2 := by
  have hrun := (Trace.refl newNode).step vote_fails
  have hrun := hrun.step (.handled (.vote ⟨2, 2, 0, 0⟩) none rfl)
  refine ⟨_, _, hrun, rfl, (durable_iff_careful openNode_newNode hrun).2 ?_⟩
  intro step hmem
  rcases List.mem_cons.1 hmem with rfl | hmem
  · rintro ⟨⟨hterm, -⟩, -⟩
    exact absurd hterm (by decide)
  · obtain rfl := List.mem_singleton.1 hmem
    rintro ⟨⟨hterm, -⟩, -⟩
    exact absurd hterm (by decide)

/-- **An answer ahead of the log file**: the vote is granted when the request comes again, and the log
    file is empty. -/
theorem not_answered_again : ∃ steps n, Trace FaultStep newNode steps n ∧
    steps.map (fun step => step.2.result) = [.ok (.vote ⟨1, true⟩), .error (.io diskError)] ∧
    stored n.wal = {} ∧ ¬ ∀ step ∈ steps, Answered step.1 step.2 := by
  have hrun := (Trace.refl newNode).step vote_fails
  have hrun := hrun.step (.handled (.vote ⟨1, 2, 0, 0⟩) none rfl)
  refine ⟨_, _, hrun, rfl, stores_nil.stored, fun h => ?_⟩
  obtain ⟨hterm, -⟩ := h _ List.mem_cons_self (.vote ⟨1, true⟩) unsavedNode rfl rfl
  rw [show unsavedNode.wal = [] from rfl, stores_nil.stored] at hterm
  cases hterm

end RaftNode

end Raft

end NutDb
