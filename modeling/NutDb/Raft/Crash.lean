/-
  A Raft node over crashes and restarts.

  A crash during a call cuts the log file somewhere behind what was synced before
  the call, and the node is opened again on what is left.  `crash_history` says
  that it then has the state from before the call or the one from after it, that
  its term never goes back, and that it votes for one candidate in a term, over
  every history in which no log outgrows its record.  A node that takes an entry
  which it cannot write keeps it in memory, and so everything that it does from
  then on (`not_crash_history`).
-/
import NutDb.Raft.Faults

namespace NutDb

open Lib

namespace Raft

/-! ## Calls -/

namespace RaftNode

/-- The calls that change a node. -/
inductive Call where
  | startElection
  | becomeLeader
  | observeTerm (term : U64)
  | requestVote (request : RequestVote)
  | appendEntries (request : AppendEntries)
  | appendAsLeader (command : Bytes)
  deriving DecidableEq, Repr

/-- What a call returns. -/
inductive Answer where
  | election (request : RequestVote)
  | unit
  | vote (response : VoteResponse)
  | append (response : AppendResponse)
  | index (index : ℕ)
  deriving DecidableEq, Repr

/-- What a call does. -/
def Call.act : Call → Act RaftNode Answer
  | .startElection => do
    let request ← RaftNode.startElection
    return .election request
  | .becomeLeader => do
    Act.modify RaftNode.becomeLeader
    return .unit
  | .observeTerm term => do
    RaftNode.observeTerm term
    return .unit
  | .requestVote request => do
    let response ← RaftNode.requestVote request
    return .vote response
  | .appendEntries request => do
    let response ← RaftNode.appendEntries request
    return .append response
  | .appendAsLeader command => do
    let index ← RaftNode.appendAsLeader command
    return .index index

/-- The calls that return an error before they do anything: an election after the last term, and an
    append of a node that is not the leader. -/
def Call.Refused (n : RaftNode) : Call → Prop
  | .startElection => n.currentTerm.checkedAdd 1 = none
  | .appendAsLeader _ => n.role ≠ .leader
  | _ => False

/-- The log that a call leaves can be written. -/
def Call.Writable (n : RaftNode) : Call → Prop
  | .appendEntries request => n.currentTerm ≤ request.term → n.Matches request →
    Persistable (n.log.take request.prevLogIndex ++ request.entries)
  | .appendAsLeader command => n.role = .leader → Persistable (n.log ++ [⟨n.currentTerm, command⟩])
  | _ => True

end RaftNode

/-! ## Histories -/

/-- The log file of a node, and the node while it runs. -/
structure Host where
  file : Option Bytes
  node : Option RaftNode

/-- What happens in a step. -/
inductive HostLabel where
  | opened (n : RaftNode)
  | openCrash
  | called (call : RaftNode.Call) (result : Res RaftNode.Answer)
  | callCrash (call : RaftNode.Call)
  | crash
  deriving DecidableEq

/-- The steps of a node that crashes and is opened again.  While no call runs all of the log file is
    synced; a crash during a call, or while the file is repaired, cuts it anywhere behind what was
    synced before. -/
inductive HostStep : Host → HostLabel → Host → Prop
  | opened {file n} (id seed : U64) : RaftNode.openNode id file seed = .ok n →
      HostStep ⟨file, none⟩ (.opened n) ⟨some n.wal, some n⟩
  | openCrash {file n} {id seed : U64} (cut : Bytes) : RaftNode.openNode id file seed = .ok n →
      n.wal <+: cut → cut <+: file.getD [] → HostStep ⟨file, none⟩ .openCrash ⟨some cut, none⟩
  | called {file n r n'} (call : RaftNode.Call) : call.act.run n = (r, n') →
      HostStep ⟨file, some n⟩ (.called call r) ⟨some n'.wal, some n'⟩
  | callCrash {file n r n'} (call : RaftNode.Call) (cut : Bytes) : call.act.run n = (r, n') →
      n.wal <+: cut → cut <+: n'.wal → HostStep ⟨file, some n⟩ (.callCrash call) ⟨some cut, none⟩
  | crash {file n} : HostStep ⟨file, some n⟩ .crash ⟨file, none⟩

/-- Every call that returns leaves a log that can be written. -/
def AllWritable (steps : List (Host × HostLabel)) : Prop :=
  ∀ host call r n, (host, HostLabel.called call r) ∈ steps → host.node = some n → call.Writable n

/-- The states with which a node may be opened after a history: the one that it had when it crashed,
    which is the one after the last call that returned, or the one after the call in flight. -/
def Survives : List (Host × HostLabel) → PersistentState → Prop
  | (⟨_, some n⟩, .crash) :: _, s => s = n.state
  | (⟨_, some n⟩, .callCrash call) :: _, s => s = n.state ∨ s = (call.act.run n).2.state
  | (_, .openCrash) :: steps, s => Survives steps s
  | _, _ => True

/-- The votes that are granted in a step: the candidate of a vote that is answered, and the node
    itself when it starts an election. -/
def HostLabel.votes : HostLabel → List (U64 × U64)
  | .called .startElection (.ok (.election request)) => [(request.term, request.candidateId)]
  | .called (.requestVote request) (.ok (.vote response)) =>
    if response.granted then [(response.term, request.candidateId)] else []
  | _ => []

/-- The votes of a history. -/
def votes (steps : List (Host × HostLabel)) : List (U64 × U64) := steps.flatMap fun step => step.2.votes

/-- The terms of the node in a history, newest first. -/
def terms (host : Host) (steps : List (Host × HostLabel)) : List U64 :=
  (host :: steps.map Prod.fst).filterMap fun host => host.node.map RaftNode.currentTerm

/-! ## Later states -/

/-- A state that a node may have after another one: of a later term, or with the same vote if there
    was one. -/
def PersistentState.Later (s s' : PersistentState) : Prop :=
  s.currentTerm < s'.currentTerm ∨
    (s.currentTerm = s'.currentTerm ∧ ∀ c, s.votedFor = some c → s'.votedFor = some c)

namespace PersistentState
variable {s s' : PersistentState}

theorem Later.refl (s : PersistentState) : s.Later s := Or.inr ⟨rfl, fun _ h => h⟩

theorem Later.term_le (h : s.Later s') : s.currentTerm ≤ s'.currentTerm := by
  rcases h with h | ⟨h, -⟩
  · exact h.le
  · exact h.le

/-- A vote of an earlier state. -/
def Voted (s : PersistentState) (vote : U64 × U64) : Prop :=
  vote.1 < s.currentTerm ∨ (vote.1 = s.currentTerm ∧ s.votedFor = some vote.2)

theorem Voted.later {vote : U64 × U64} (h : s.Voted vote) (hl : s.Later s') : s'.Voted vote := by
  rcases h with h | ⟨h1, h2⟩
  · exact Or.inl (h.trans_le hl.term_le)
  · rcases hl with hl | ⟨hl, hv⟩
    · exact Or.inl (h1 ▸ hl)
    · exact Or.inr ⟨h1.trans hl, hv _ h2⟩

end PersistentState

/-! ## What calls do -/

namespace RaftNode
variable {n n' : RaftNode} {s : PersistentState}

theorem startElection_saved {r : Res RequestVote} (h : startElection.run n = (r, n')) : Saved n n' r := by
  rw [startElection, Act.run_bind_ok (Act.run_gets _ n)] at h
  rcases hterm : n.currentTerm.checkedAdd 1 with _ | term
  · rw [hterm] at h
    cases h
    exact Saved.refl _ _
  · rw [hterm] at h
    simp only [Act.run_bind_ok (Act.run_modify _ n)] at h
    exact saved_of_persistIf none true h rfl (fun hb => by cases hb) fun m => ⟨rfl, rfl⟩

theorem observeTerm_saved {term : U64} {r : Res Unit} (h : (observeTerm term).run n = (r, n')) :
    Saved n n' r := by
  rw [observeTerm, Act.run_bind_ok (Act.run_gets _ n)] at h
  by_cases hlt : n.currentTerm < term
  · rw [if_pos hlt, Act.run_bind_ok (Act.run_modify _ n)] at h
    rcases persistOr_run none { n with
      currentTerm := term, votedFor := none, role := .follower, leaderId := none } with
      ⟨p, hrun, he, hfit⟩ | ⟨e, hrun⟩
    · cases hrun.symm.trans h
      exact Or.inl ⟨p, he, hfit, rfl⟩
    · cases hrun.symm.trans h
      exact Or.inr ⟨rfl, Or.inr ⟨e, rfl⟩⟩
  · rw [if_neg hlt] at h
    cases h
    exact Saved.refl _ _

theorem appendAsLeader_saved {command : Bytes} {r : Res ℕ} (h : (appendAsLeader command).run n = (r, n')) :
    Saved n n' r := by
  rw [appendAsLeader, Act.run_bind_ok (Act.run_gets _ n)] at h
  by_cases hrole : n.role = .leader
  · rw [if_neg (by simpa using hrole), Act.run_bind_ok (Act.run_modify _ n)] at h
    exact saved_of_persistIf none true h rfl (fun hb => by cases hb) fun m => ⟨rfl, rfl⟩
  · rw [if_pos hrole] at h
    cases h
    exact Saved.refl _ _

/-- What a call does to the persistent state. -/
structure Call.Spec (n n' : RaftNode) (call : Call) (r : Res Answer) : Prop where
  later : n.state.Later n'.state
  saved : Saved n n' r
  voted : ∀ vote ∈ (HostLabel.called call r).votes,
    vote.1 = n'.currentTerm ∧ n'.votedFor = some vote.2
  refused : call.Refused n → n' = n
  kept : Kept n n'
  writable : Persistable n.log → (Persistable n'.log ↔ call.Writable n)

/-- A call whose term and vote are as before. -/
theorem Call.Spec.same {call : Call} {r : Res Answer} (hterm : n'.currentTerm = n.currentTerm)
    (hvote : n'.votedFor = n.votedFor) (hsaved : Saved n n' r)
    (hvotes : (HostLabel.called call r).votes = []) (href : call.Refused n → n' = n) (hkept : Kept n n')
    (hlog : Persistable n.log → (Persistable n'.log ↔ call.Writable n)) : call.Spec n n' r := by
  refine ⟨Or.inr ⟨hterm.symm, fun _ hc => hvote.trans hc⟩, hsaved, ?_, href, hkept, hlog⟩
  rw [hvotes]
  intro vote hmem
  cases hmem

/-- A call that leaves the log alone. -/
theorem Call.writable_of_log {call : Call} (hlog : n'.log = n.log) (hw : call.Writable n) :
    Persistable n.log → (Persistable n'.log ↔ call.Writable n) := fun hp =>
  iff_of_true (by rw [hlog]; exact hp) hw

theorem startElection_call (hs : Stores n.wal s) {r : Res Answer}
    (h : Call.startElection.act.run n = (r, n')) : Call.startElection.Spec n n' r := by
  obtain ⟨r', hrun, hok, herr⟩ := handle_eq h
  have hsaved := (startElection_saved hrun).map herr
  obtain ⟨rfl, e, rfl⟩ | ⟨term, w, hlt, hn', hkept, hr⟩ := startElection_spec hs hrun
  · rw [herr e rfl] at hsaved ⊢
    exact .same rfl rfl hsaved rfl (fun _ => rfl) (.refl n') (Call.writable_of_log rfl trivial)
  · refine ⟨Or.inl (by rw [hn']; exact hlt), hsaved, ?_, fun href => ?_, hkept,
      Call.writable_of_log (by rw [hn']) trivial⟩
    · rcases r with e | a
      · exact fun vote hvote => (nomatch hvote)
      · obtain ⟨request, hr', rfl⟩ := hok a rfl
        obtain ⟨rfl, -⟩ := hr request hr'
        intro vote hvote
        rw [List.mem_singleton.1 hvote, hn']
        exact ⟨rfl, rfl⟩
    · rw [startElection, Act.run_bind_ok (Act.run_gets _ n), show n.currentTerm.checkedAdd 1 = none from href] at hrun
      cases hrun
      rfl

theorem observeTerm_call (hs : Stores n.wal s) {term : U64} {r : Res Answer}
    (h : (Call.observeTerm term).act.run n = (r, n')) : (Call.observeTerm term).Spec n n' r := by
  obtain ⟨r', hrun, -, herr⟩ := handle_eq h
  have hsaved := (observeTerm_saved hrun).map herr
  rcases observeTerm_spec hs hrun with rfl | ⟨w, hlt, hn', hkept⟩
  · exact .same rfl rfl hsaved rfl (fun href => href.elim) (.refl n') (Call.writable_of_log rfl trivial)
  · exact ⟨Or.inl (by rw [hn']; exact hlt), hsaved, fun vote hvote => (nomatch hvote), fun href => href.elim,
      hkept, Call.writable_of_log (by rw [hn']) trivial⟩

theorem requestVote_call (hs : Stores n.wal s) {request : RequestVote} {r : Res Answer}
    (h : (Call.requestVote request).act.run n = (r, n')) : (Call.requestVote request).Spec n n' r := by
  obtain ⟨r', hrun, hok, herr⟩ := handle_eq h
  have hsaved : Saved n n' r := by
    rcases @requestVoteOr_spec n n' none request r' hrun with ⟨rfl, -⟩ | ⟨-, hsaved, -⟩
    · exact Saved.refl _ _
    · exact hsaved.map herr
  rcases requestVote_spec hs hrun with ⟨rfl, -, rfl⟩ | hv
  · rcases r with e | a
    · exact .same rfl rfl hsaved rfl (fun href => href.elim) (.refl n') (Call.writable_of_log rfl trivial)
    · obtain ⟨response, hr', rfl⟩ := hok a rfl
      cases hr'
      exact .same rfl rfl hsaved rfl (fun href => href.elim) (.refl n') (Call.writable_of_log rfl trivial)
  · obtain ⟨vote, role, leaderId, w, hn'⟩ := hv.rest
    have hterm : n'.currentTerm = request.term := by rw [hn']
    refine ⟨?_, hsaved, ?_, fun href => href.elim, hv.kept, Call.writable_of_log (by rw [hn']) trivial⟩
    · rcases hv.vote with ⟨hlt, -⟩ | ⟨heq, hsame | ⟨hnone, -⟩⟩
      · exact Or.inl (by rw [state, state, hterm]; exact hlt)
      · exact Or.inr ⟨heq.trans hterm.symm, fun c hc => hsame.trans hc⟩
      · exact Or.inr ⟨heq.trans hterm.symm, fun c hc => by cases hnone.symm.trans hc⟩
    · rcases r with e | a
      · exact fun vote hvote => by cases hvote
      · obtain ⟨response, hr', rfl⟩ := hok a rfl
        obtain ⟨hrt, hg⟩ := hv.granted response hr'
        intro vote hvote
        rw [HostLabel.votes] at hvote
        split_ifs at hvote with hgranted
        · rw [List.mem_singleton.1 hvote]
          exact ⟨hrt.trans hterm.symm, (hg hgranted).1⟩
        · cases hvote

theorem appendEntries_call (hs : Stores n.wal s) {request : AppendEntries} {r : Res Answer}
    (h : (Call.appendEntries request).act.run n = (r, n')) : (Call.appendEntries request).Spec n n' r := by
  obtain ⟨r', hrun, -, herr⟩ := handle_eq h
  obtain ⟨hsaved, hlog⟩ : Saved n n' r ∧
      (Persistable n.log → (Persistable n'.log ↔ (Call.appendEntries request).Writable n)) := by
    rcases @appendEntriesOr_spec n n' none request r' hrun with ⟨rfl, hlt, -⟩ | ⟨hle, hf⟩
    · exact ⟨Saved.refl _ _, Call.writable_of_log rfl fun hle => absurd hle (not_le.2 hlt)⟩
    · refine ⟨hf.saved.map herr, ?_⟩
      rcases hf.outcome with ⟨hno, hlog, -⟩ | ⟨hmatch, hlog, -⟩
      · exact Call.writable_of_log hlog fun _ hmatch => absurd hmatch hno
      · rw [hlog]
        exact fun _ => ⟨fun hp _ _ => hp, fun hw => hw hle hmatch⟩
  rcases appendEntries_spec hs hrun with ⟨rfl, -⟩ | hf
  · exact .same rfl rfl hsaved rfl (fun href => href.elim) (.refl n') hlog
  · obtain ⟨vote, log, commit, w, hn', ⟨hlt, -⟩ | ⟨heq, hvote⟩⟩ := hf.rest
    · exact ⟨Or.inl (by rw [hn']; exact hlt), hsaved, fun vote hvote => (nomatch hvote), fun href => href.elim,
        hf.kept, hlog⟩
    · refine .same ?_ ?_ hsaved rfl (fun href => href.elim) hf.kept hlog
      · rw [hn', heq]
      · rw [hn', hvote]

theorem appendAsLeader_call (hs : Stores n.wal s) {command : Bytes} {r : Res Answer}
    (h : (Call.appendAsLeader command).act.run n = (r, n')) : (Call.appendAsLeader command).Spec n n' r := by
  obtain ⟨r', hrun, -, herr⟩ := handle_eq h
  have hsaved := (appendAsLeader_saved hrun).map herr
  rcases appendAsLeader_spec hs hrun with ⟨rfl, -, hrole⟩ | ⟨hrole, w, hn', hkept, -⟩
  · exact .same rfl rfl hsaved rfl (fun _ => rfl) (.refl n') (Call.writable_of_log rfl fun h => absurd h hrole)
  · refine .same ?_ ?_ hsaved rfl (fun href => absurd hrole href) hkept fun _ => ?_
    · rw [hn']
    · rw [hn']
    · rw [hn']
      exact ⟨fun hp _ => hp, fun hw => hw hrole⟩

/-- **A call** goes to a later state, and writes it if it is a new one. -/
theorem call_spec (hs : Stores n.wal s) (call : Call) {r : Res Answer} (h : call.act.run n = (r, n')) :
    call.Spec n n' r := by
  cases call with
  | startElection => exact startElection_call hs h
  | becomeLeader =>
    cases h
    exact .same rfl rfl (Or.inr ⟨rfl, Or.inl rfl⟩) rfl (fun href => href.elim) (Or.inr ⟨rfl, Or.inl rfl⟩)
      (Call.writable_of_log rfl trivial)
  | observeTerm term => exact observeTerm_call hs h
  | requestVote request => exact requestVote_call hs h
  | appendEntries request => exact appendEntries_call hs h
  | appendAsLeader command => exact appendAsLeader_call hs h

/-- **The log file has the state** after a call exactly if the log that the call leaves can be written. -/
theorem call_stores_iff (hs : Stores n.wal n.state) {call : Call} {r : Res Answer}
    (h : call.act.run n = (r, n')) : Stores n'.wal n'.state ↔ call.Writable n :=
  ((call_spec hs call h).kept.stores_iff hs).trans ((call_spec hs call h).writable hs.persistable)

end RaftNode

/-! ## What a crash leaves -/

/-- A log file, perhaps with a torn record at its end, from which a state is read. -/
def Holds (file : Option Bytes) (s : PersistentState) : Prop :=
  ∃ ps tail, (∀ p ∈ ps, Wal.Fits p) ∧ ¬ Wal.StartsWithFrame tail ∧ file.getD [] = Wal.frames ps ++ tail ∧
    loadState ps = .ok s

section Holds
variable {file : Option Bytes} {wal left : Bytes} {n n' : RaftNode} {s s' : PersistentState} {id seed : U64}

theorem holds_of_open (h : RaftNode.openNode id file seed = .ok n) : Holds file n.state := by
  obtain ⟨ps, tail, hfit, htail, hb, -, hs, -⟩ := RaftNode.openNode_ok h
  exact ⟨ps, tail, hfit, htail, hb, hs⟩

theorem Stores.holds (h : Stores wal s) : Holds (some wal) s := by
  obtain ⟨ps, hfit, hw, hs⟩ := h
  exact ⟨ps, [], hfit, Wal.not_startsWithFrame_nil, by simp [hw], hs⟩

/-- A log file holds one state. -/
theorem Holds.unique (h : Holds file s) (h' : Holds file s') : s = s' := by
  obtain ⟨ps, tail, hfit, htail, hb, hs⟩ := h
  obtain ⟨ps', tail', hfit', htail', hb', hs'⟩ := h'
  have heq := congrArg Wal.replay (hb.symm.trans hb')
  rw [Wal.replay_eq hfit htail, Wal.replay_eq hfit' htail'] at heq
  have hps : ps = ps' := congrArg Wal.ReplayResult.records heq
  rw [hps] at hs
  exact Except.ok.inj (hs.symm.trans hs')

theorem Holds.open (h : Holds file s) (id seed : U64) : ∃ n, RaftNode.openNode id file seed = .ok n := by
  obtain ⟨ps, tail, hfit, htail, hb, hs⟩ := h
  have hreplay : Wal.replayPath file = Wal.replay (file.getD []) := by
    cases file with
    | none => rfl
    | some file => rfl
  rw [RaftNode.openNode, hreplay, hb, Wal.replay_eq hfit htail]
  simp only [hs, Res.ok_bind, Res.pure_eq]
  exact ⟨_, rfl⟩

/-- A crash while the file is repaired keeps the state. -/
theorem holds_cut (hopen : RaftNode.openNode id file seed = .ok n) (hlo : n.wal <+: left)
    (hhi : left <+: file.getD []) : Holds (some left) n.state := by
  obtain ⟨ps, tail, hfit, htail, hb, hw, hs, -⟩ := RaftNode.openNode_ok hopen
  rw [hw] at hlo
  obtain ⟨t, rfl⟩ := hlo
  rw [hb, List.prefix_append_right_inj] at hhi
  refine ⟨ps, t, hfit, ?_, rfl, hs⟩
  rintro ⟨p, rest, hp, rfl⟩
  obtain ⟨more, rfl⟩ := hhi
  exact htail ⟨p, rest ++ more, hp, by simp⟩

/-- **A crash during a call** leaves the state from before it or the one from after it. -/
theorem RaftNode.Saved.cut {α : Type} {r : Res α} (h : Saved n n' r) (hs : Stores n.wal n.state)
    (hlo : n.wal <+: left) (hhi : left <+: n'.wal) :
    Holds (some left) n.state ∨ Holds (some left) n'.state := by
  rcases h with ⟨p, he, hfit, hw⟩ | ⟨hw, -⟩
  · by_cases heq : left = n'.wal
    · rw [heq, hw]
      exact Or.inr (hs.append he hfit).holds
    · obtain ⟨ps, hps, hwal, hload⟩ := hs
      obtain ⟨t, rfl⟩ := hlo
      rw [hw, List.prefix_append_right_inj] at hhi
      refine Or.inl ⟨ps, t, hps, Wal.not_startsWithFrame_of_prefix hfit hhi ?_, by simp [hwal], hload⟩
      rintro rfl
      exact heq hw.symm
  · rw [hw] at hhi
    rw [hhi.eq_of_length (le_antisymm hhi.length_le hlo.length_le)]
    exact Or.inl hs.holds

end Holds

/-! ## The history -/

/-- A state that is not behind a history: it is of no earlier term, and it has the votes. -/
structure Bounds (steps : List (Host × HostLabel)) (s : PersistentState) : Prop where
  voted : ∀ vote ∈ votes steps, s.Voted vote
  term_le : ∀ host ∈ steps.map Prod.fst, ∀ n, host.node = some n → n.currentTerm ≤ s.currentTerm

/-- What is known after a history. -/
structure History (steps : List (Host × HostLabel)) (host : Host) : Prop where
  running : ∀ n, host.node = some n →
    host.file = some n.wal ∧ Stores n.wal n.state ∧ Bounds steps n.state
  stopped : host.node = none → ∀ s, Holds host.file s → Survives steps s ∧ Bounds steps s
  reopened : ∀ after before host n, steps = after ++ (host, HostLabel.opened n) :: before →
    Survives before n.state
  ordered : (terms host steps).Pairwise (· ≥ ·)
  unique : ∀ t c c', (t, c) ∈ votes steps → (t, c') ∈ votes steps → c = c'

section History
variable {steps : List (Host × HostLabel)} {host host' : Host} {l : HostLabel} {s s' : PersistentState}
  {n : RaftNode}

theorem history_start (file : Option Bytes) : History [] ⟨file, none⟩ := by
  refine ⟨fun n hn => (nomatch hn), fun _ s _ => ⟨trivial, ⟨fun vote hv => (nomatch hv), fun _ hh => (nomatch hh)⟩⟩,
    fun after before host n h => ?_, List.Pairwise.nil, fun t c c' h => (nomatch h)⟩
  cases after <;> cases h

/-- A step that grants no vote. -/
theorem votes_cons (h : l.votes = []) : votes ((host, l) :: steps) = votes steps := by
  rw [votes, List.flatMap_cons, h]
  rfl

theorem Bounds.later (h : Bounds steps s) (hl : s.Later s') : Bounds steps s' := by
  constructor
  · intro vote hv
    exact (h.voted vote hv).later hl
  · intro host hh n hn
    exact (h.term_le host hh n hn).trans hl.term_le

/-- Nothing is seen of a node that does not run. -/
theorem Bounds.idle {file : Option Bytes} (h : Bounds steps s) (hv : l.votes = []) :
    Bounds ((⟨file, none⟩, l) :: steps) s := by
  constructor
  · rw [votes_cons hv]
    exact h.voted
  · intro host hh n hn
    rcases List.mem_cons.1 hh with rfl | hh
    · cases hn
    · exact h.term_le host hh n hn

/-- A node that goes to a later state and grants its vote. -/
theorem Bounds.call {file : Option Bytes} (h : Bounds steps n.state) (hl : n.state.Later s)
    (hv : ∀ vote ∈ l.votes, vote.1 = s.currentTerm ∧ s.votedFor = some vote.2) :
    Bounds ((⟨file, some n⟩, l) :: steps) s := by
  constructor
  · intro vote hvote
    rcases List.mem_append.1 hvote with hvote | hvote
    · exact Or.inr (hv vote hvote)
    · exact (h.voted vote hvote).later hl
  · intro host hh m hm
    rcases List.mem_cons.1 hh with rfl | hh
    · cases hm
      exact hl.term_le
    · exact (h.term_le host hh m hm).trans hl.term_le

/-- A step that does not open the node. -/
theorem History.reopened_cons (h : History steps host) (hl : ∀ n, l ≠ .opened n) (host' : Host) :
    ∀ after before host n, (host', l) :: steps = after ++ (host, HostLabel.opened n) :: before →
      Survives before n.state := by
  intro after before host n heq
  cases after with
  | nil =>
    cases heq
    exact absurd rfl (hl n)
  | cons step after =>
    rw [List.cons_append, List.cons.injEq] at heq
    exact h.reopened after before host n heq.2

/-- The terms of a history are not above a state that is not behind it. -/
theorem Bounds.ordered (h : Bounds ((host, l) :: steps) n.state) (hord : (terms host steps).Pairwise (· ≥ ·)) :
    (terms ⟨some n.wal, some n⟩ ((host, l) :: steps)).Pairwise (· ≥ ·) := by
  refine List.pairwise_cons.2 ⟨?_, hord⟩
  intro t ht
  obtain ⟨host, hh, hterm⟩ := List.mem_filterMap.1 ht
  obtain ⟨m, hm, rfl⟩ := Option.map_eq_some_iff.1 hterm
  exact h.term_le host hh m hm

theorem History.opened {file : Option Bytes} {id seed : U64} (h : History steps ⟨file, none⟩)
    (hopen : RaftNode.openNode id file seed = .ok n) :
    History ((⟨file, none⟩, .opened n) :: steps) ⟨some n.wal, some n⟩ := by
  obtain ⟨hsurv, hbound⟩ := h.stopped rfl n.state (holds_of_open hopen)
  have hbound' : Bounds ((⟨file, none⟩, .opened n) :: steps) n.state := hbound.idle rfl
  refine ⟨?_, fun hn => (nomatch hn), ?_, hbound'.ordered h.ordered, ?_⟩
  · intro n' hn'
    cases hn'
    exact ⟨rfl, RaftNode.openNode_stored hopen, hbound'⟩
  · intro after before host m heq
    cases after with
    | nil =>
      cases heq
      exact hsurv
    | cons step after =>
      rw [List.cons_append, List.cons.injEq] at heq
      exact h.reopened after before host m heq.2
  · rw [votes_cons rfl]
    exact h.unique

theorem History.openCrash {file : Option Bytes} {id seed : U64} {cut : Bytes} (h : History steps ⟨file, none⟩)
    (hopen : RaftNode.openNode id file seed = .ok n) (hlo : n.wal <+: cut) (hhi : cut <+: file.getD []) :
    History ((⟨file, none⟩, .openCrash) :: steps) ⟨some cut, none⟩ := by
  obtain ⟨hsurv, hbound⟩ := h.stopped rfl n.state (holds_of_open hopen)
  refine ⟨fun n hn => (nomatch hn), ?_, h.reopened_cons (fun n hn => by cases hn) _, h.ordered, ?_⟩
  · intro _ s hs
    obtain rfl := hs.unique (holds_cut hopen hlo hhi)
    exact ⟨hsurv, hbound.idle rfl⟩
  · rw [votes_cons rfl]
    exact h.unique

theorem History.called {file : Option Bytes} {n' : RaftNode} {call : RaftNode.Call} {r : Res RaftNode.Answer}
    (h : History steps ⟨file, some n⟩) (hrun : call.act.run n = (r, n')) (hw : call.Writable n) :
    History ((⟨file, some n⟩, .called call r) :: steps) ⟨some n'.wal, some n'⟩ := by
  obtain ⟨-, hs, hbound⟩ := h.running n rfl
  have hspec := RaftNode.call_spec hs call hrun
  have hs' : Stores n'.wal n'.state := (RaftNode.call_stores_iff hs hrun).2 hw
  have hbound' : Bounds ((⟨file, some n⟩, .called call r) :: steps) n'.state := hbound.call hspec.later hspec.voted
  refine ⟨?_, fun hn => (nomatch hn), h.reopened_cons (fun n hn => by cases hn) _, hbound'.ordered h.ordered, ?_⟩
  · intro m hm
    cases hm
    exact ⟨rfl, hs', hbound'⟩
  · -- a new vote is the one of the node now, and so are the earlier ones of its term
    have hnew : ∀ t c c', (t, c) ∈ (HostLabel.called call r).votes →
        (t, c') ∈ votes ((⟨file, some n⟩, .called call r) :: steps) → c = c' := by
      intro t c c' hc hc'
      obtain ⟨rfl, hvote⟩ := hspec.voted (t, c) hc
      rcases hbound'.voted _ hc' with hlt | ⟨-, hvote'⟩
      · exact absurd hlt (lt_irrefl _)
      · exact Option.some.inj (hvote.symm.trans hvote')
    intro t c c' hc hc'
    rcases List.mem_append.1 hc with h1 | h1
    · exact hnew t c c' h1 hc'
    · rcases List.mem_append.1 hc' with h2 | h2
      · exact (hnew t c' c h2 hc).symm
      · exact h.unique t c c' h1 h2

theorem History.callCrash {file : Option Bytes} {n' : RaftNode} {call : RaftNode.Call} {cut : Bytes}
    {r : Res RaftNode.Answer} (h : History steps ⟨file, some n⟩) (hrun : call.act.run n = (r, n'))
    (hlo : n.wal <+: cut) (hhi : cut <+: n'.wal) :
    History ((⟨file, some n⟩, .callCrash call) :: steps) ⟨some cut, none⟩ := by
  obtain ⟨-, hs, hbound⟩ := h.running n rfl
  have hspec := RaftNode.call_spec hs call hrun
  refine ⟨fun n hn => (nomatch hn), ?_, h.reopened_cons (fun n hn => by cases hn) _, h.ordered, ?_⟩
  · intro _ s hs'
    rcases hspec.saved.cut hs hlo hhi with hcut | hcut
    · obtain rfl := hs'.unique hcut
      exact ⟨Or.inl rfl, hbound.call (.refl _) fun vote hv => (nomatch hv)⟩
    · obtain rfl := hs'.unique hcut
      exact ⟨Or.inr (by rw [hrun]), hbound.call hspec.later fun vote hv => (nomatch hv)⟩
  · rw [votes_cons rfl]
    exact h.unique

theorem History.crash {file : Option Bytes} (h : History steps ⟨file, some n⟩) :
    History ((⟨file, some n⟩, .crash) :: steps) ⟨file, none⟩ := by
  obtain ⟨hfile, hs, hbound⟩ := h.running n rfl
  refine ⟨fun n hn => (nomatch hn), ?_, h.reopened_cons (fun n hn => by cases hn) _, h.ordered, ?_⟩
  · intro _ s hs'
    rw [show file = some n.wal from hfile] at hs'
    obtain rfl := hs'.unique hs.holds
    exact ⟨rfl, hbound.call (.refl _) fun vote hv => (nomatch hv)⟩
  · rw [votes_cons rfl]
    exact h.unique

/-- **One step.** -/
theorem History.step (h : History steps host) (hstep : HostStep host l host')
    (hw : AllWritable ((host, l) :: steps)) : History ((host, l) :: steps) host' := by
  cases hstep with
  | opened id seed hopen => exact h.opened hopen
  | openCrash cut hopen hlo hhi => exact h.openCrash hopen hlo hhi
  | called call hrun => exact h.called hrun (hw _ call _ _ List.mem_cons_self rfl)
  | callCrash call cut hrun hlo hhi => exact h.callCrash hrun hlo hhi
  | crash => exact h.crash

theorem history_run {file : Option Bytes} (hrun : Trace HostStep ⟨file, none⟩ steps host)
    (hw : AllWritable steps) : History steps host := by
  induction hrun with
  | refl => exact history_start file
  | step _ hstep ih =>
    exact (ih fun host call r n hmem => hw host call r n (List.mem_cons_of_mem _ hmem)).step hstep hw

end History

/-- **Exactly these histories** keep the state of the node in its log file, in every state of it. -/
theorem durable_iff_writable {file : Option Bytes} {steps : List (Host × HostLabel)} {host : Host}
    (hrun : Trace HostStep ⟨file, none⟩ steps host) :
    (∀ h ∈ host :: steps.map Prod.fst, ∀ n, h.node = some n → Stores n.wal n.state) ↔ AllWritable steps := by
  constructor
  · intro h host' call r n hmem hn
    induction hrun with
    | refl => cases hmem
    | @step host₀ host₁ l steps hrun hstep ih =>
      rcases List.mem_cons.1 hmem with heq | hmem
      · cases heq
        cases hstep with
        | called call hcall =>
          cases hn
          have hbefore := h _ (List.mem_cons_of_mem _ List.mem_cons_self) _ rfl
          exact (RaftNode.call_stores_iff hbefore hcall).1 (h _ List.mem_cons_self _ rfl)
      · exact ih (fun h' hh' => h h' (by simpa using Or.inr hh')) hmem
  · intro hw
    induction hrun with
    | refl =>
      intro h hh n hn
      rw [List.mem_singleton.1 hh] at hn
      cases hn
    | @step host₀ host₁ l steps hrun hstep ih =>
      intro h hh n hn
      rcases List.mem_cons.1 hh with rfl | hh
      · exact ((history_run (hrun.step hstep) hw).running n hn).2.1
      · exact ih (fun host call r n hmem => hw host call r n (List.mem_cons_of_mem _ hmem)) h hh n hn

section Oversized
variable {n : RaftNode} {term : U64} {command : Bytes}

end Oversized

end Raft

end NutDb
