/-
  Append requests, from whatever node they come.

  The two loops of `replicate_existing` do not ask whether the sender leads.  A
  node that they reach follows in the term of the sender afterwards, with a log
  that is as long and ends in the same term.  If the first loop fails, some node
  has changed its term or its log.
-/
import NutDb.Raft.Replication

namespace NutDb

open Lib

namespace Raft

/-! ## A request at a node -/

theorem PersistentState.encode_returns (s : PersistentState) : Res.Returns s.encode := by
  unfold PersistentState.encode
  split_ifs
  · refine Res.Returns.bind (Res.Returns.mapM fun entry _ => ?_) fun entries => Res.returns_ok _
    unfold encodeEntry
    split_ifs
    · exact Res.returns_ok _
    · exact Res.returns_fail _ _
  · exact Res.returns_fail _ _

namespace RaftNode
variable {n n' : RaftNode}

/-- `persist` changes the log file only, and does not panic. -/
theorem persist_wal {r : Res Unit} (h : persist.run n = (r, n')) :
    Res.Returns r ∧ ∃ w, n' = { n with wal := w } := by
  rw [persist, Act.run_bind_ok (Act.run_gets _ n)] at h
  rcases n.state.encode_returns.cases with ⟨payload, he⟩ | ⟨e, he⟩
  · rw [he, Act.run_bind_ok (Act.run_lift _ n)] at h
    unfold Wal.append at h
    split_ifs at h
    · cases h
      exact ⟨Res.returns_ok _, _, rfl⟩
    · cases h
      exact ⟨Res.returns_fail _ _, n.wal, rfl⟩
  · rw [he] at h
    cases h
    exact ⟨Res.returns_fail e.kind e.message, n.wal, rfl⟩

theorem persistIf_wal {b : Bool} {r : Res Unit} (h : (persistIf b).run n = (r, n')) :
    Res.Returns r ∧ (∃ w, n' = { n with wal := w }) ∧ (b = false → r = .ok () ∧ n' = n) := by
  cases b with
  | true =>
    obtain ⟨h1, h2⟩ := persist_wal h
    exact ⟨h1, h2, fun hb => (nomatch hb)⟩
  | false =>
    cases h
    exact ⟨Res.returns_ok _, ⟨n.wal, rfl⟩, fun _ => ⟨rfl, rfl⟩⟩

/-- The commit index of a node that takes a request. -/
def commitAfter (n : RaftNode) (commit : ℕ) : ℕ :=
  if n.commitIndex < commit then min commit n.log.length else n.commitIndex

/-- A node that takes a request without entries. -/
def heard (n : RaftNode) (leader : U64) (commit : ℕ) : RaftNode :=
  { n with role := .follower, leaderId := some leader, commitIndex := n.commitAfter commit }

/-- A node that has gone on to a later term or has changed its log. -/
def Departed (n n' : RaftNode) : Prop := n.currentTerm < n'.currentTerm ∨ n'.log ≠ n.log

/-- How a node that is not ahead of an append request deals with it, in memory. -/
structure Took (n n' : RaftNode) (request : AppendEntries) (r : Res AppendResponse) : Prop where
  le : n.currentTerm ≤ request.term
  term : n'.currentTerm = request.term
  role : n'.role = .follower
  outcome :
    ((∃ m, r = .ok ⟨request.term, false, m⟩) ∧ 0 < request.prevLogIndex ∧ n'.log = n.log ∧
      n'.commitIndex = n.commitIndex) ∨
    (r = .ok ⟨request.term, true, request.prevLogIndex + request.entries.length⟩ ∧ n.Matches request ∧
      n'.log = n.log.take request.prevLogIndex ++ request.entries ∧
      n'.commitIndex = if n.commitIndex < request.leaderCommit then min request.leaderCommit n'.log.length
        else n.commitIndex) ∨
    ((∃ e, r = .error (.io e)) ∧ Departed n n')

/-- **`append_entries`, in memory**: it fails only after a change of the term or the log. -/
theorem appendEntries_took {request : AppendEntries} {r : Res AppendResponse}
    (h : (appendEntries request).run n = (r, n')) :
    (n' = n ∧ request.term < n.currentTerm ∧ ∃ m, r = .ok ⟨n.currentTerm, false, m⟩) ∨
      Took n n' request r := by
  rw [appendEntries, Act.run_bind_ok (Act.run_gets _ n)] at h
  by_cases hlt : request.term < n.currentTerm
  · rw [if_pos hlt] at h
    cases h
    exact Or.inl ⟨rfl, hlt, _, rfl⟩
  rw [if_neg hlt, Act.run_bind_ok (Act.run_modify _ n)] at h
  have hle := not_lt.1 hlt
  obtain ⟨vote, hfollow, -⟩ := follow_eq hle
  have hlog : (n.follow request).log = n.log := by rw [hfollow]
  refine Or.inr ?_
  rcases mismatched_spec (n.follow request) request with ⟨hmiss, hpos, -⟩ | ⟨hmiss, hmatch⟩
  · rw [hmiss, Act.run_bind_ok (Act.run_lift _ _), if_pos rfl] at h
    rcases Act.run_bind_cases h with ⟨u, n₁, hp, h⟩ | ⟨e, hp, rfl⟩
    · cases h
      obtain ⟨-, ⟨w, rfl⟩, -⟩ := persistIf_wal hp
      rw [hfollow]
      exact ⟨hle, rfl, rfl, Or.inl ⟨⟨_, rfl⟩, hpos, rfl, rfl⟩⟩
    · obtain ⟨hret, ⟨w, rfl⟩, hsame⟩ := persistIf_wal hp
      have hraised : n.currentTerm < request.term := by
        by_contra hnot
        cases (hsame (decide_eq_false hnot)).1
      obtain ⟨u, hu⟩ | ⟨io, hio⟩ := hret.cases
      · cases hu
      · cases hio
        rw [hfollow]
        exact ⟨hle, rfl, rfl, Or.inr (Or.inr ⟨⟨io, rfl⟩, Or.inl hraised⟩)⟩
  · rw [hmiss, Act.run_bind_ok (Act.run_lift _ _), if_neg (by simp), Act.run_bind_ok (Act.run_modify _ _),
      hlog] at h
    have hmatch : n.Matches request := by
      rw [Matches, hlog] at hmatch
      exact hmatch
    obtain ⟨hmerge, -⟩ := mergeEntries_spec request.entries n.log request.prevLogIndex
      (decide (n.currentTerm < request.term)) hmatch.1
    rcases Act.run_bind_cases h with ⟨u, n₁, hp, h⟩ | ⟨e, hp, rfl⟩
    · obtain ⟨-, ⟨w, rfl⟩, -⟩ := persistIf_wal hp
      rw [Act.run_bind_ok (Act.run_modify _ _)] at h
      cases h
      rw [hfollow]
      refine ⟨hle, ?_, ?_, Or.inr (Or.inl ⟨rfl, hmatch, ?_, ?_⟩)⟩
      · split_ifs <;> rfl
      · split_ifs <;> rfl
      · split_ifs <;> exact hmerge
      · split_ifs <;> rfl
    · obtain ⟨hret, ⟨w, rfl⟩, hsame⟩ := persistIf_wal hp
      obtain ⟨u, hu⟩ | ⟨io, hio⟩ := hret.cases
      · cases hu
      · cases hio
        refine ⟨hle, by rw [hfollow], by rw [hfollow], Or.inr (Or.inr ⟨⟨io, rfl⟩, ?_⟩)⟩
        by_contra hnot
        obtain ⟨hterm, hsame'⟩ := not_or.1 hnot
        rw [hfollow] at hterm
        -- nothing is written if the entries are in the log
        have hrepeat := mergeEntries_repeats (decide (n.currentTerm < request.term)) hmatch.1
          ((not_not.1 hsame').symm.trans hmerge)
        rw [hrepeat] at hsame
        cases (hsame (decide_eq_false hterm)).1

/-- `observe_term` of a later term. -/
theorem observeTerm_raises {term : U64} {r : Res Unit} (hlt : n.currentTerm < term)
    (h : (observeTerm term).run n = (r, n')) : Res.Returns r ∧ n.currentTerm < n'.currentTerm := by
  rw [observeTerm, Act.run_bind_ok (Act.run_gets _ n), if_pos hlt, Act.run_bind_ok (Act.run_modify _ n)] at h
  obtain ⟨hret, w, rfl⟩ := persist_wal h
  exact ⟨hret, hlt⟩

/-! ## Nodes in step with a sender -/

/-- A node in the term of a sender, with a log that is as long and ends in the same term. -/
structure InStep (sender n : RaftNode) : Prop where
  term : n.currentTerm = sender.currentTerm
  length : n.log.length = sender.log.length
  lastTerm : n.lastLogTerm = sender.lastLogTerm

/-- What a request of a sender that is refused leaves behind. -/
structure Missed (n n' : RaftNode) : Prop where
  term : n.currentTerm ≤ n'.currentTerm
  log : n'.log = n.log
  commit : n'.commitIndex = n.commitIndex

/-- What a request of a sender that is taken leaves behind. -/
structure Reached (sender n n' : RaftNode) : Prop where
  inStep : InStep sender n'
  role : n'.role = .follower
  commit : n'.commitIndex = if n.commitIndex < sender.commitIndex then min sender.commitIndex n'.log.length
    else n.commitIndex

/-- A node that a sender cannot change. -/
structure Follows (sender n : RaftNode) : Prop where
  inStep : InStep sender n
  role : n.role = .follower
  commit : sender.commitIndex ≤ n.commitIndex ∨ n.commitIndex = n.log.length

section InStep
variable {sender : RaftNode}

theorem lastLogTerm_eq (n : RaftNode) :
    n.lastLogTerm = ((n.log[n.log.length - 1]?).map Entry.term).getD 0 := by
  rw [lastLogTerm, List.getLast?_eq_getElem?]

theorem prevLogTerm_last (n : RaftNode) : RaftCluster.prevLogTerm n.log n.log.length = .ok n.lastLogTerm := by
  unfold RaftCluster.prevLogTerm
  split_ifs with h0
  · rw [lastLogTerm, List.length_eq_zero_iff.1 h0]
    rfl
  · have hget := List.getElem?_eq_getElem (l := n.log) (i := n.log.length - 1) (by omega)
    rw [Res.get_of_getElem? hget, lastLogTerm_eq, hget]
    rfl

theorem mismatched_of_matches {request : AppendEntries} (h : n.Matches request) :
    n.mismatched request = .ok false := by
  obtain ⟨hle, hentry⟩ := h
  rw [mismatched, lastLogIndex, if_neg (not_lt.2 hle)]
  split_ifs with hpos
  · obtain ⟨e, he, hterm⟩ := hentry hpos
    rw [Res.get_of_getElem? he]
    simp [hterm]
  · rfl

/-- A request without entries at the end of the log: nothing is written. -/
theorem appendEntries_heartbeat {request : AppendEntries} (hterm : request.term = n.currentTerm)
    (hmatch : n.Matches request) (hprev : request.prevLogIndex = n.log.length) (hentries : request.entries = []) :
    (RaftNode.appendEntries request).run n =
      (.ok ⟨n.currentTerm, true, n.log.length⟩, n.heard request.leaderId request.leaderCommit) := by
  have hlt : ¬ n.currentTerm < request.term := by rw [hterm]; exact lt_irrefl _
  have hfollow : n.follow request = { n with role := .follower, leaderId := some request.leaderId } := by
    rw [follow, if_neg hlt]
  have hmiss : (n.follow request).mismatched request = .ok false :=
    mismatched_of_matches (by rw [hfollow]; exact hmatch)
  have hmerge : mergeEntries (n.follow request).log request.prevLogIndex
      (decide (n.currentTerm < request.term)) request.entries = (n.log, false) := by
    rw [hfollow, hentries, hprev, decide_eq_false hlt]
    exact mergeEntries_repeats false le_rfl (by simp)
  rw [RaftNode.appendEntries, Act.run_bind_ok (Act.run_gets _ n), if_neg (by rw [hterm]; exact lt_irrefl _),
    Act.run_bind_ok (Act.run_modify _ n), hmiss, Act.run_bind_ok (Act.run_lift _ _), if_neg (by simp),
    Act.run_bind_ok (Act.run_modify _ _), hmerge, persistIf, if_neg (by simp),
    Act.run_bind_ok (Act.run_pure () _), Act.run_bind_ok (Act.run_modify _ _), Act.run_pure, hfollow, hprev,
    hentries, heard, commitAfter]
  refine Prod.ext rfl ?_
  simp only [gt_iff_lt, lastLogIndex]
  split_ifs <;> rfl

/-- A node that is in step takes a request without entries. -/
theorem InStep.appendEntries (h : InStep sender n) (leader : U64) (commit : ℕ) :
    (RaftNode.appendEntries
        ⟨sender.currentTerm, leader, sender.log.length, sender.lastLogTerm, [], commit⟩).run n =
      (.ok ⟨sender.currentTerm, true, sender.log.length⟩, n.heard leader commit) := by
  obtain ⟨hterm, hlen, hlast⟩ := h
  rw [← hterm, ← hlen, ← hlast]
  refine appendEntries_heartbeat rfl ⟨le_rfl, fun hpos => ?_⟩ rfl rfl
  have hget := List.getElem?_eq_getElem (l := n.log) (i := n.log.length - 1) (Nat.sub_one_lt_of_lt hpos)
  refine ⟨_, hget, ?_⟩
  rw [lastLogTerm_eq, hget]
  rfl

theorem InStep.heard (h : InStep sender n) (leader : U64) (commit : ℕ) : InStep sender (n.heard leader commit) :=
  ⟨h.term, h.length, h.lastTerm⟩

/-- A node that takes the entries of a sender behind an index is in step. -/
theorem inStep_of_matches {request : AppendEntries} (hmatch : n.Matches request)
    (hle : request.prevLogIndex ≤ sender.log.length)
    (hprev : RaftCluster.prevLogTerm sender.log request.prevLogIndex = .ok request.prevLogTerm)
    (hterm : n'.currentTerm = sender.currentTerm)
    (hlog : n'.log = n.log.take request.prevLogIndex ++ sender.log.drop request.prevLogIndex) :
    InStep sender n' := by
  obtain ⟨hlen, hentry⟩ := hmatch
  have hlength : n'.log.length = sender.log.length := by
    rw [hlog, List.length_append, List.length_take, List.length_drop]
    omega
  refine ⟨hterm, hlength, ?_⟩
  rw [lastLogTerm_eq, lastLogTerm_eq, hlength]
  by_cases hend : request.prevLogIndex = sender.log.length
  · -- nothing is sent, and the entry that matches is the last one
    rcases Nat.eq_zero_or_pos request.prevLogIndex with h0 | hpos
    · rw [List.length_eq_zero_iff.1 (hlength.trans (hend.symm.trans h0)),
        List.length_eq_zero_iff.1 (hend.symm.trans h0)]
    · obtain ⟨e, he, het⟩ := hentry hpos
      obtain ⟨u, hu, hsent⟩ := RaftCluster.prevLogTerm_spec hle
      obtain ⟨e', he', het'⟩ := hsent hpos
      rw [hprev] at hu
      cases hu
      rw [hlog, List.getElem?_append_left (by rw [List.length_take]; omega), List.getElem?_take,
        if_pos (by omega), ← hend, he, he']
      simp [het, het']
  · rw [hlog, List.getElem?_append_right (by rw [List.length_take]; omega), List.getElem?_drop, List.length_take,
      Nat.min_eq_left hlen, Nat.add_sub_cancel' (by omega)]

theorem Reached.follows (h : Reached sender n n') : Follows sender n' := by
  refine ⟨h.inStep, h.role, ?_⟩
  rw [h.commit]
  split_ifs with hlt
  · rcases le_total sender.commitIndex n'.log.length with hle | hle
    · exact Or.inl (le_min le_rfl hle)
    · exact Or.inr (min_eq_right hle)
  · exact Or.inl (not_lt.1 hlt)

theorem Missed.reached {n₁ : RaftNode} (h : Missed n n₁) (h' : Reached sender n₁ n') : Reached sender n n' :=
  ⟨h'.inStep, h'.role, by rw [← h.commit]; exact h'.commit⟩

theorem Missed.departed {n₁ : RaftNode} (h : Missed n n₁) (h' : Departed n₁ n') : Departed n n' := by
  rcases h' with hlt | hlog
  · exact Or.inl (h.term.trans_lt hlt)
  · exact Or.inr (by rw [← h.log]; exact hlog)

/-- A node that follows only learns who has sent the request. -/
theorem Follows.heard (h : Follows sender n) (leader : U64) :
    n.heard leader sender.commitIndex = { n with leaderId := some leader } := by
  have hcommit : n.commitAfter sender.commitIndex = n.commitIndex := by
    unfold commitAfter
    split_ifs with hlt
    · have hlen := h.commit.resolve_left (not_le.2 hlt)
      omega
    · rfl
  rw [RaftNode.heard, hcommit, ← h.role]

end InStep

end RaftNode

/-! ## The loops, at nodes in step -/

namespace RaftCluster
variable {c c' : RaftCluster} {leader follower : U64} {sender : RaftNode}

theorem onNode_of_run {α : Type} {x : Act RaftNode α} {r : Res α} {q : U64} {n' : RaftNode}
    (h : x.run (c.nodes q) = (r, n')) : (onNode q x).run c = (r, c.setNode q n') := by
  show ((x.run (c.nodes q)).1, c.setNode q (x.run (c.nodes q)).2) = _
  rw [h]

/-- The cluster after a request without entries to the followers that are not cut off. -/
def published (c : RaftCluster) (leader : U64) (commit : ℕ) (followers : List U64) : RaftCluster :=
  { c with nodes := fun q =>
      if q ∈ followers ∧ q ≠ leader ∧ c.cutOff leader q = false then (c.nodes q).heard leader commit
      else c.nodes q }

theorem published_nil (commit : ℕ) : c.published leader commit [] = c := by
  simp [published]

theorem published_skip {commit : ℕ} {followers : List U64}
    (h : follower = leader ∨ c.cutOff leader follower = true) :
    c.published leader commit (follower :: followers) = c.published leader commit followers := by
  have hnodes : ∀ q, (q ∈ follower :: followers ∧ q ≠ leader ∧ c.cutOff leader q = false) ↔
      (q ∈ followers ∧ q ≠ leader ∧ c.cutOff leader q = false) := by
    intro q
    refine and_congr_left fun ⟨hql, hcut⟩ => ⟨fun hq => ?_, List.mem_cons_of_mem _⟩
    refine (List.mem_cons.1 hq).resolve_left ?_
    rintro rfl
    rcases h with rfl | h
    · exact hql rfl
    · rw [hcut] at h
      cases h
  simp only [published, hnodes]

theorem published_cons {commit : ℕ} {followers : List U64} (hne : follower ≠ leader)
    (hcut : c.cutOff leader follower = false) (hnotin : follower ∉ followers) :
    (c.setNode follower ((c.nodes follower).heard leader commit)).published leader commit followers =
      c.published leader commit (follower :: followers) := by
  have hnodes : ∀ q, (if q ∈ followers ∧ q ≠ leader ∧ c.cutOff leader q = false then
        ((c.setNode follower ((c.nodes follower).heard leader commit)).nodes q).heard leader commit
      else (c.setNode follower ((c.nodes follower).heard leader commit)).nodes q) =
      if q ∈ follower :: followers ∧ q ≠ leader ∧ c.cutOff leader q = false then
        (c.nodes q).heard leader commit else c.nodes q := by
    intro q
    by_cases hq : q = follower
    · subst hq
      rw [setNode_self, if_neg fun h => hnotin h.1, if_pos ⟨List.mem_cons_self, hne, hcut⟩]
    · rw [setNode_of_ne hq]
      simp only [List.mem_cons, hq, false_or]
  simp only [published]
  congr 1
  funext q
  exact hnodes q

/-- The rest of the followers is in step after one of them has heard of the sender. -/
theorem inStep_setNode {followers : List U64} {n : RaftNode} (hnotin : follower ∉ followers)
    (h : ∀ q ∈ follower :: followers, q ≠ leader → c.cutOff leader q = false → RaftNode.InStep sender (c.nodes q)) :
    ∀ q ∈ followers, q ≠ leader → (c.setNode follower n).cutOff leader q = false →
      RaftNode.InStep sender ((c.setNode follower n).nodes q) := by
  intro q hq hql hcut
  have hqf : q ≠ follower := fun hqf => hnotin (hqf ▸ hq)
  rw [setNode_of_ne hqf]
  exact h q (List.mem_cons_of_mem _ hq) hql hcut

/-- The inner loop at a node in step: the first request is taken. -/
theorem matchFollower_inStep (h : RaftNode.InStep sender (c.nodes follower)) (commit : ℕ) :
    (matchFollower leader follower sender.currentTerm sender.log commit sender.log.length).run c =
      (.ok sender.log.length, c.setNode follower ((c.nodes follower).heard leader commit)) := by
  have happ : (onNode follower (RaftNode.appendEntries ⟨sender.currentTerm, leader, sender.log.length,
      sender.lastLogTerm, sender.log.drop sender.log.length, commit⟩)).run c =
      (.ok ⟨sender.currentTerm, true, sender.log.length⟩,
        c.setNode follower ((c.nodes follower).heard leader commit)) := by
    rw [List.drop_length]
    exact onNode_of_run (h.appendEntries leader commit)
  have htry : (tryAppend leader follower sender.currentTerm sender.log commit sender.log.length).run c =
      (.ok (some sender.log.length), c.setNode follower ((c.nodes follower).heard leader commit)) := by
    rw [tryAppend, RaftNode.prevLogTerm_last, Act.run_bind_ok (Act.run_lift _ c), Act.run_bind_ok happ,
      if_neg (lt_irrefl _)]
    rfl
  rcases hlen : sender.log.length with _ | k
  · rw [hlen] at htry
    rw [matchFollower, Act.run_bind_ok htry]
    rfl
  · rw [hlen] at htry
    rw [matchFollower, Act.run_bind_ok htry]
    rfl

/-- **The first loop at nodes in step.** -/
theorem matchFollowers_inStep (commit : ℕ) (followers : List U64) : ∀ {c : RaftCluster}, followers.Nodup →
    (∀ q ∈ followers, q ≠ leader → c.cutOff leader q = false → RaftNode.InStep sender (c.nodes q)) →
    (matchFollowers leader sender.currentTerm sender.log commit followers).run c =
      (.ok (c.matchIndices leader sender.log followers), c.published leader commit followers) := by
  induction followers with
  | nil => exact fun _ _ => by rw [published_nil]; rfl
  | cons follower followers ih =>
    intro c hnodup h
    obtain ⟨hnotin, hnodup⟩ := List.nodup_cons.1 hnodup
    have h' := fun q hq => h q (List.mem_cons_of_mem _ hq)
    rw [matchFollowers, Act.run_bind_ok (Act.run_gets _ c)]
    by_cases heq : follower = leader
    · rw [if_pos heq, ih hnodup h', published_skip (Or.inl heq), matchIndices, matchIndices,
        List.filter_cons_of_neg (by simpa using heq)]
    rw [if_neg heq, matchIndices, List.filter_cons_of_pos (by simpa using heq), List.map_cons]
    by_cases hcut : c.cutOff leader follower = true
    · rw [if_pos hcut, if_pos hcut, Act.run_bind_ok (Act.run_pure 0 c), Act.run_bind_ok (ih hnodup h'),
        published_skip (Or.inr hcut)]
      rfl
    · have hcut' : c.cutOff leader follower = false := by simpa using hcut
      rw [if_neg hcut, if_neg hcut,
        Act.run_bind_ok (matchFollower_inStep (h follower List.mem_cons_self heq hcut') commit),
        Act.run_bind_ok (ih hnodup (inStep_setNode hnotin h)), published_cons heq hcut' hnotin]
      rfl

/-- **The second loop at nodes in step.** -/
theorem publish_inStep (commit : ℕ) (followers : List U64) : ∀ {c : RaftCluster}, followers.Nodup →
    (∀ q ∈ followers, q ≠ leader → c.cutOff leader q = false → RaftNode.InStep sender (c.nodes q)) →
    (publish leader sender.currentTerm sender.log commit followers).run c =
      (.ok (), c.published leader commit followers) := by
  induction followers with
  | nil => exact fun _ _ => by rw [published_nil]; rfl
  | cons follower followers ih =>
    intro c hnodup h
    obtain ⟨hnotin, hnodup⟩ := List.nodup_cons.1 hnodup
    rw [publish, Act.run_bind_ok (Act.run_gets _ c)]
    by_cases hskip : follower = leader ∨ c.cutOff leader follower = true
    · rw [if_pos hskip, ih hnodup fun q hq => h q (List.mem_cons_of_mem _ hq), published_skip hskip]
    rw [if_neg hskip]
    obtain ⟨heq, hcut⟩ := not_or.1 hskip
    have hcut : c.cutOff leader follower = false := by simpa using hcut
    have hstep := h follower List.mem_cons_self heq hcut
    have hlen : (c.nodes follower).lastLogIndex = sender.log.length := hstep.length
    have happ := onNode_of_run (hstep.appendEntries leader commit)
    dsimp only
    rw [hlen, RaftNode.prevLogTerm_last, Act.run_bind_ok (Act.run_lift _ c), Act.run_bind_ok happ,
      ih hnodup (inStep_setNode hnotin h), published_cons heq hcut hnotin]

/-! ## The first loop, at any nodes -/

/-- A run that has failed, after a change of the term or the log of one of these nodes. -/
def Broke {α : Type} (c c' : RaftCluster) (r : Res α) (nodes : List U64) : Prop :=
  (∃ e, r = .error (.io e)) ∧ ∃ p ∈ nodes, RaftNode.Departed (c.nodes p) (c'.nodes p)

/-- **A round of the inner loop.** -/
theorem tryAppend_sent {prev : ℕ} {r : Res (Option ℕ)} (hsender : c.nodes leader = sender)
    (hprev : prev ≤ sender.log.length)
    (hrun : (tryAppend leader follower sender.currentTerm sender.log sender.commitIndex prev).run c = (r, c')) :
    (r = .ok none ∧ 0 < prev ∧ ∃ n', c' = c.setNode follower n' ∧ RaftNode.Missed (c.nodes follower) n') ∨
      (∃ m n', r = .ok (some m) ∧ c' = c.setNode follower n' ∧
        RaftNode.Reached sender (c.nodes follower) n') ∨
      Broke c c' r [leader, follower] := by
  obtain ⟨u, hu, -⟩ := prevLogTerm_spec hprev
  rw [tryAppend, hu, Act.run_bind_ok (Act.run_lift _ c)] at hrun
  rcases Act.run_bind_cases hrun with ⟨response, c₁, happ, hrun⟩ | ⟨e, happ, rfl⟩
  · obtain ⟨n', hnode, rfl⟩ := run_onNode happ
    rcases RaftNode.appendEntries_took hnode with ⟨rfl, hlt, m, hr⟩ | htook
    · -- the follower is ahead, and the sender learns of its term
      cases hr
      rw [setNode_eq_self, if_pos hlt] at hrun
      have hlt : (c.nodes leader).currentTerm < (c.nodes follower).currentTerm := by rw [hsender]; exact hlt
      rcases Act.run_bind_cases hrun with ⟨v, c₂, hobs, hrun⟩ | ⟨e, hobs, rfl⟩
      · cases hrun
        obtain ⟨n', hnode, rfl⟩ := run_onNode hobs
        obtain ⟨-, hraised⟩ := RaftNode.observeTerm_raises hlt hnode
        refine Or.inr (Or.inr ⟨⟨_, rfl⟩, leader, List.mem_cons_self, Or.inl ?_⟩)
        rw [setNode_self]
        exact hraised
      · obtain ⟨n', hnode, rfl⟩ := run_onNode hobs
        obtain ⟨hret, hraised⟩ := RaftNode.observeTerm_raises hlt hnode
        obtain ⟨v, hv⟩ | ⟨io, hio⟩ := hret.cases
        · cases hv
        · cases hio
          refine Or.inr (Or.inr ⟨⟨io, rfl⟩, leader, List.mem_cons_self, Or.inl ?_⟩)
          rw [setNode_self]
          exact hraised
    · rcases htook.outcome with ⟨⟨m, hr⟩, hpos, hlog, hcommit⟩ | ⟨hr, hmatch, hlog, hcommit⟩ | ⟨⟨e, hr⟩, -⟩
      · cases hr
        rw [if_neg (lt_irrefl _)] at hrun
        cases hrun
        exact Or.inl ⟨rfl, hpos, n', rfl, htook.le.trans htook.term.ge, hlog, hcommit⟩
      · cases hr
        rw [if_neg (lt_irrefl _)] at hrun
        cases hrun
        exact Or.inr (Or.inl ⟨_, n', rfl, rfl, RaftNode.inStep_of_matches hmatch hprev hu htook.term hlog,
          htook.role, hcommit⟩)
      · cases hr
  · obtain ⟨n', hnode, rfl⟩ := run_onNode happ
    rcases RaftNode.appendEntries_took hnode with ⟨-, -, m, hr⟩ | htook
    · cases hr
    · rcases htook.outcome with ⟨⟨m, hr⟩, -⟩ | ⟨hr, -⟩ | ⟨⟨io, hr⟩, hdep⟩
      · cases hr
      · cases hr
      · cases hr
        refine Or.inr (Or.inr ⟨⟨io, rfl⟩, follower, by simp, ?_⟩)
        rw [setNode_self]
        exact hdep

/-- **The inner loop** ends with the follower in step: at index 0 every log matches. -/
theorem matchFollower_sent (hne : leader ≠ follower) (prev : ℕ) : ∀ {c c' : RaftCluster} {r : Res ℕ},
    c.nodes leader = sender → prev ≤ sender.log.length →
    (matchFollower leader follower sender.currentTerm sender.log sender.commitIndex prev).run c = (r, c') →
    (∃ m n', r = .ok m ∧ c' = c.setNode follower n' ∧ RaftNode.Reached sender (c.nodes follower) n') ∨
      Broke c c' r [leader, follower] := by
  induction prev with
  | zero =>
    intro c c' r hsender hprev hrun
    rw [matchFollower] at hrun
    rcases Act.run_bind_cases hrun with ⟨m, c₁, htry, hrun⟩ | ⟨e, htry, rfl⟩
    · cases hrun
      rcases tryAppend_sent hsender hprev htry with ⟨-, hpos, -⟩ | ⟨m', n', -, hc', hreached⟩ | ⟨⟨e, he⟩, -⟩
      · exact absurd hpos (lt_irrefl 0)
      · exact Or.inl ⟨_, n', rfl, hc', hreached⟩
      · cases he
    · rcases tryAppend_sent hsender hprev htry with ⟨he, -⟩ | ⟨m', n', he, -⟩ | ⟨⟨io, he⟩, hdep⟩
      · cases he
      · cases he
      · cases he
        exact Or.inr ⟨⟨io, rfl⟩, hdep⟩
  | succ prev ih =>
    intro c c' r hsender hprev hrun
    rw [matchFollower] at hrun
    rcases Act.run_bind_cases hrun with ⟨m, c₁, htry, hrun⟩ | ⟨e, htry, rfl⟩
    · rcases tryAppend_sent hsender hprev htry with
        ⟨hm, -, n', rfl, hmissed⟩ | ⟨m', n', hm, rfl, hreached⟩ | ⟨⟨e, he⟩, -⟩
      · cases hm
        have hsender' : (c.setNode follower n').nodes leader = sender := by rw [setNode_of_ne hne, hsender]
        rcases ih hsender' (Nat.le_of_succ_le hprev) hrun with ⟨m, n'', hr, hc', hreached⟩ | ⟨he, p, hp, hdep⟩
        · rw [setNode_self] at hreached
          exact Or.inl ⟨m, n'', hr, by rw [hc', setNode_setNode], hmissed.reached hreached⟩
        · refine Or.inr ⟨he, p, hp, ?_⟩
          by_cases hpf : p = follower
          · subst hpf
            rw [setNode_self] at hdep
            exact hmissed.departed hdep
          · rw [setNode_of_ne hpf] at hdep
            exact hdep
      · cases hm
        cases hrun
        exact Or.inl ⟨m', n', rfl, rfl, hreached⟩
      · cases he
    · rcases tryAppend_sent hsender hprev htry with ⟨he, -⟩ | ⟨m', n', he, -⟩ | ⟨⟨io, he⟩, hdep⟩
      · cases he
      · cases he
      · cases he
        exact Or.inr ⟨⟨io, rfl⟩, hdep⟩

/-- What the first loop leaves behind: the followers that are not cut off are reached, and no other
    node is changed. -/
structure Sent (c c' : RaftCluster) (sender : RaftNode) (leader : U64) (followers : List U64) : Prop where
  net : SameNet c c'
  same : ∀ q, q = leader ∨ q ∉ followers ∨ c.cutOff leader q = true → c'.nodes q = c.nodes q
  reached : ∀ q ∈ followers, q ≠ leader → c.cutOff leader q = false →
    RaftNode.Reached sender (c.nodes q) (c'.nodes q)

section Cons
variable {followers : List U64} {n' : RaftNode}

/-- The next follower is skipped. -/
theorem Sent.skip (h : Sent c c' sender leader followers)
    (hskip : follower = leader ∨ c.cutOff leader follower = true) :
    Sent c c' sender leader (follower :: followers) := by
  refine ⟨h.net, fun q hq => ?_, fun q hq hql hcut => ?_⟩
  · refine h.same q (hq.imp_right (Or.imp_left fun hq hmem => hq (List.mem_cons_of_mem _ hmem)))
  · refine h.reached q ((List.mem_cons.1 hq).resolve_left ?_) hql hcut
    rintro rfl
    rcases hskip with hskip | hskip
    · exact hql hskip
    · rw [hcut] at hskip
      cases hskip

/-- The next follower is reached, before the others are sent anything. -/
theorem Sent.cons (hne : leader ≠ follower) (hnotin : follower ∉ followers)
    (hcut : c.cutOff leader follower = false) (hreached : RaftNode.Reached sender (c.nodes follower) n')
    (h : Sent (c.setNode follower n') c' sender leader followers) :
    Sent c c' sender leader (follower :: followers) := by
  refine ⟨(sameNet_setNode c follower n').trans h.net, fun q hq => ?_, fun q hq hql hcut' => ?_⟩
  · have hqf : q ≠ follower := by
      rintro rfl
      rcases hq with hq | hq | hq
      · exact hne hq.symm
      · exact hq List.mem_cons_self
      · rw [hcut] at hq
        cases hq
    rw [h.same q (hq.imp_right (Or.imp_left fun hq hmem => hq (List.mem_cons_of_mem _ hmem))), setNode_of_ne hqf]
  · rcases List.mem_cons.1 hq with rfl | hq
    · rw [h.same q (Or.inr (Or.inl hnotin)), setNode_self]
      exact hreached
    · have hqf : q ≠ follower := fun hqf => hnotin (hqf ▸ hq)
      have := h.reached q hq hql hcut'
      rwa [setNode_of_ne hqf] at this

/-- A failure at one of the other followers. -/
theorem Broke.cons {α : Type} {r : Res α} (hne : leader ≠ follower) (hnotin : follower ∉ followers)
    (h : Broke (c.setNode follower n') c' r (leader :: followers)) :
    Broke c c' r (leader :: follower :: followers) := by
  obtain ⟨he, p, hp, hdep⟩ := h
  have hpf : p ≠ follower := by
    rintro rfl
    rcases List.mem_cons.1 hp with hp | hp
    · exact hne hp.symm
    · exact hnotin hp
  rw [setNode_of_ne hpf] at hdep
  refine ⟨he, p, ?_, hdep⟩
  rcases List.mem_cons.1 hp with hp | hp
  · exact hp ▸ List.mem_cons_self
  · exact List.mem_cons_of_mem _ (List.mem_cons_of_mem _ hp)

theorem Broke.mono {α β : Type} {r : Res α} {r' : Res β} {nodes nodes' : List U64} (h : Broke c c' r nodes)
    (hr : ∀ e, r = .error e → r' = .error e) (hsub : ∀ p ∈ nodes, p ∈ nodes') : Broke c c' r' nodes' := by
  obtain ⟨⟨e, he⟩, p, hp, hdep⟩ := h
  exact ⟨⟨e, hr _ he⟩, p, hsub p hp, hdep⟩

end Cons

/-- **The first loop of `replicate_existing`**, from any state. -/
theorem matchFollowers_sent (followers : List U64) : ∀ {c c' : RaftCluster} {r : Res (List ℕ)},
    c.nodes leader = sender → followers.Nodup →
    (matchFollowers leader sender.currentTerm sender.log sender.commitIndex followers).run c = (r, c') →
    ((∃ indices, r = .ok indices) ∧ Sent c c' sender leader followers) ∨
      Broke c c' r (leader :: followers) := by
  induction followers with
  | nil =>
    intro c c' r _ _ hrun
    cases hrun
    exact Or.inl ⟨⟨_, rfl⟩, ⟨rfl, rfl, rfl, rfl⟩, fun _ _ => rfl, by simp⟩
  | cons follower followers ih =>
    intro c c' r hsender hnodup hrun
    obtain ⟨hnotin, hnodup⟩ := List.nodup_cons.1 hnodup
    have hmono : ∀ p ∈ leader :: followers, p ∈ leader :: follower :: followers := by
      intro p hp
      rcases List.mem_cons.1 hp with rfl | hp
      · exact List.mem_cons_self
      · exact List.mem_cons_of_mem _ (List.mem_cons_of_mem _ hp)
    rw [matchFollowers, Act.run_bind_ok (Act.run_gets _ c)] at hrun
    by_cases heq : follower = leader
    · rw [if_pos heq] at hrun
      rcases ih hsender hnodup hrun with ⟨hr, hsent⟩ | hbroke
      · exact Or.inl ⟨hr, hsent.skip (Or.inl heq)⟩
      · exact Or.inr (hbroke.mono (fun _ he => he) hmono)
    rw [if_neg heq] at hrun
    have hne : leader ≠ follower := fun h => heq h.symm
    by_cases hcut : c.cutOff leader follower = true
    · rw [if_pos hcut, Act.run_bind_ok (Act.run_pure 0 c)] at hrun
      rcases Act.run_bind_cases hrun with ⟨indices, c₁, hloop, hrun⟩ | ⟨e, hloop, rfl⟩
      · cases hrun
        rcases ih hsender hnodup hloop with ⟨-, hsent⟩ | ⟨⟨e, he⟩, -⟩
        · exact Or.inl ⟨⟨_, rfl⟩, hsent.skip (Or.inr hcut)⟩
        · cases he
      · rcases ih hsender hnodup hloop with ⟨⟨indices, he⟩, -⟩ | hbroke
        · cases he
        · exact Or.inr (hbroke.mono (fun e he => by cases he; rfl) hmono)
    rw [if_neg hcut] at hrun
    have hcut : c.cutOff leader follower = false := by simpa using hcut
    rcases Act.run_bind_cases hrun with ⟨index, c₁, hloop, hrun⟩ | ⟨e, hloop, rfl⟩
    · rcases matchFollower_sent hne sender.log.length hsender le_rfl hloop with
        ⟨m, n', -, rfl, hreached⟩ | ⟨⟨e, he⟩, -⟩
      · have hsender' : (c.setNode follower n').nodes leader = sender := by rw [setNode_of_ne hne, hsender]
        rcases Act.run_bind_cases hrun with ⟨indices, c₂, hrest, hrun⟩ | ⟨e, hrest, rfl⟩
        · cases hrun
          rcases ih hsender' hnodup hrest with ⟨-, hsent⟩ | ⟨⟨e, he⟩, -⟩
          · exact Or.inl ⟨⟨_, rfl⟩, hsent.cons hne hnotin hcut hreached⟩
          · cases he
        · rcases ih hsender' hnodup hrest with ⟨⟨indices, he⟩, -⟩ | hbroke
          · cases he
          · exact Or.inr ((hbroke.cons hne hnotin).mono (fun e he => by cases he; rfl) fun p hp => hp)
      · cases he
    · rcases matchFollower_sent hne sender.log.length hsender le_rfl hloop with ⟨m, n', he, -⟩ | hbroke
      · cases he
      · refine Or.inr (hbroke.mono (fun e he => by cases he; rfl) fun p hp => ?_)
        rcases List.mem_cons.1 hp with rfl | hp
        · exact List.mem_cons_self
        · exact List.mem_cons_of_mem _ (List.mem_singleton.1 hp ▸ List.mem_cons_self)

/-! ## Applying -/

/-- A cluster in which commands were applied. -/
structure AppliedTo (c c' : RaftCluster) : Prop where
  ids : c'.ids = c.ids
  stopped : c'.stopped = c.stopped
  blocked : c'.blocked = c.blocked
  node : ∀ q, ∃ k, c'.nodes q = { c.nodes q with lastApplied := k }

theorem AppliedTo.trans {c'' : RaftCluster} (h : AppliedTo c c') (h' : AppliedTo c' c'') : AppliedTo c c'' := by
  refine ⟨h'.ids.trans h.ids, h'.stopped.trans h.stopped, h'.blocked.trans h.blocked, fun q => ?_⟩
  obtain ⟨k, hk⟩ := h.node q
  obtain ⟨k', hk'⟩ := h'.node q
  exact ⟨k', by rw [hk', hk]⟩

/-- A round of `apply_all`, whether or not it panics. -/
theorem applyNode_appliedTo {q : U64} {r : Res Unit} (hrun : (applyNode q).run c = (r, c')) :
    AppliedTo c c' := by
  have hself : ∀ p, ∃ k, c.nodes p = { c.nodes p with lastApplied := k } := fun p => ⟨_, rfl⟩
  rw [applyNode, Act.run_bind_ok (Act.run_gets _ c)] at hrun
  rcases Act.run_bind_cases hrun with ⟨⟨commands, n⟩, c₁, htake, hrun⟩ | ⟨e, htake, rfl⟩
  · rw [Act.run_lift, Prod.mk.injEq] at htake
    obtain ⟨htake, rfl⟩ := htake
    rw [RaftNode.takeApplied] at htake
    obtain ⟨entries, -, heq⟩ := Res.bind_eq_ok.1 htake
    cases heq
    cases hrun
    refine ⟨rfl, rfl, rfl, fun p => ?_⟩
    by_cases hp : p = q
    · subst hp
      exact ⟨_, Function.update_self ..⟩
    · obtain ⟨k, hk⟩ := hself p
      exact ⟨k, by rw [← hk]; exact Function.update_of_ne hp ..⟩
  · rw [Act.run_lift, Prod.mk.injEq] at htake
    obtain ⟨-, rfl⟩ := htake
    exact ⟨rfl, rfl, rfl, hself⟩

/-- **`apply_all`**, whether or not it panics. -/
theorem applyAll_appliedTo (ids : List U64) : ∀ {c : RaftCluster} {r : Res Unit},
    (applyAll ids).run c = (r, c') → AppliedTo c c' := by
  induction ids with
  | nil =>
    intro c r hrun
    cases hrun
    exact ⟨rfl, rfl, rfl, fun q => ⟨_, rfl⟩⟩
  | cons q ids ih =>
    intro c r hrun
    rw [applyAll] at hrun
    rcases Act.run_bind_cases hrun with ⟨u, c₁, happ, hrun⟩ | ⟨e, happ, rfl⟩
    · exact (applyNode_appliedTo happ).trans (ih hrun)
    · exact applyNode_appliedTo happ

/-- **`apply_all` applies everything that is committed.** -/
theorem applyAll_run (ids : List U64) : ∀ {c : RaftCluster}, ids.Nodup →
    (∀ q ∈ ids, (c.nodes q).lastApplied ≤ (c.nodes q).commitIndex ∧
      (c.nodes q).commitIndex ≤ (c.nodes q).log.length) →
    ∃ c', (applyAll ids).run c = (.ok (), c') ∧ (∀ q, q ∉ ids → c'.nodes q = c.nodes q) ∧
      ∀ q ∈ ids, (c'.nodes q).lastApplied = (c.nodes q).commitIndex := by
  induction ids with
  | nil => exact fun _ _ => ⟨_, rfl, fun _ _ => rfl, by simp⟩
  | cons q ids ih =>
    intro c hnodup h
    obtain ⟨hnotin, hnodup⟩ := List.nodup_cons.1 hnodup
    obtain ⟨hle, hlen⟩ := h q List.mem_cons_self
    obtain ⟨entries, htake, -⟩ := RaftNode.takeApplied_spec hle hlen
    obtain ⟨c₁, hc₁⟩ : ∃ c₁, c₁ = ({ c with
      nodes := Function.update c.nodes q { c.nodes q with lastApplied := (c.nodes q).commitIndex }
      applied := Function.update c.applied q (c.applied q ++ entries.map Entry.command) } : RaftCluster) :=
      ⟨_, rfl⟩
    have happ : (applyNode q).run c = (.ok (), c₁) := by
      rw [applyNode, Act.run_bind_ok (Act.run_gets _ c), htake, Act.run_bind_ok (Act.run_lift _ c), hc₁]
      rfl
    have hother : ∀ p, p ≠ q → c₁.nodes p = c.nodes p := fun p hp => by
      rw [hc₁]
      exact Function.update_of_ne hp ..
    obtain ⟨c', hrun, hsame, hdone⟩ := ih (c := c₁) hnodup fun p hp => by
      rw [hother p fun hpq => hnotin (hpq ▸ hp)]
      exact h p (List.mem_cons_of_mem _ hp)
    refine ⟨c', by rw [applyAll, Act.run_bind_ok happ, hrun], fun p hp => ?_, fun p hp => ?_⟩
    · rw [List.mem_cons, not_or] at hp
      rw [hsame p hp.2, hother p hp.1]
    · rcases List.mem_cons.1 hp with rfl | hp
      · rw [hsame p hnotin, hc₁]
        dsimp only
        rw [Function.update_self]
      · rw [hdone p hp, hother p fun hpq => hnotin (hpq ▸ hp)]

end RaftCluster

end Raft

end NutDb
