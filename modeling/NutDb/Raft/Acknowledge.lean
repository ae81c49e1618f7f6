/-
  When `replicate` acknowledges a command.

  Requests of a leader fail only at a node that is ahead of it, or that cannot
  write its log.  So a command is acknowledged if and only if the leader reaches
  a majority and no node that it reaches is in a later term, and then every node
  that it reaches has applied its whole log.
-/
import NutDb.Raft.Convergence

namespace NutDb

open Lib Lib.Raft

namespace Raft

/-! ## Nodes that can write their logs -/

namespace RaftNode
variable {n : RaftNode}

/-- `persist` of a log that can be written. -/
theorem persist_ok (hp : Persistable n.log) : ∃ w, persist.run n = (.ok (), { n with wal := w }) := by
  obtain ⟨payload, he, hfit⟩ := hp n.currentTerm n.votedFor
  have he : n.state.encode = .ok payload := he
  refine ⟨n.wal ++ Wal.frame payload, ?_⟩
  rw [persist, Act.run_bind_ok (Act.run_gets _ n), he, Act.run_bind_ok (Act.run_lift _ n),
    Wal.append_of_fits hfit, Act.run_bind_ok (Act.run_lift _ n)]
  rfl

theorem persistIf_ok (hp : Persistable n.log) (changed : Bool) :
    ∃ w, (persistIf changed).run n = (.ok (), { n with wal := w }) := by
  cases changed with
  | true => exact persist_ok hp
  | false => exact ⟨n.wal, rfl⟩

/-- `append_entries`, at a node that is not ahead and can write what it takes. -/
theorem appendEntries_ok {request : AppendEntries} (hle : n.currentTerm ≤ request.term)
    (hp : Persistable n.log)
    (hp' : n.Matches request → Persistable (n.log.take request.prevLogIndex ++ request.entries)) :
    ∃ response n', (appendEntries request).run n = (.ok response, n') ∧ response.term = request.term ∧
      n'.currentTerm = request.term ∧ (response.success = false → n'.log = n.log) := by
  obtain ⟨r, n', hrun⟩ : ∃ r n', (appendEntries request).run n = (r, n') := ⟨_, _, rfl⟩
  have hok : ∃ response, r = .ok response := by
    rw [appendEntries, Act.run_bind_ok (Act.run_gets _ n), if_neg (not_lt.2 hle),
      Act.run_bind_ok (Act.run_modify _ n)] at hrun
    obtain ⟨vote, hfollow, -⟩ := follow_eq hle
    have hlog : (n.follow request).log = n.log := by rw [hfollow]
    rcases mismatched_spec (n.follow request) request with ⟨hmiss, -⟩ | ⟨hmiss, hmatch⟩
    · obtain ⟨w, hw⟩ := persistIf_ok (n := n.follow request) (hlog ▸ hp)
        (decide (n.currentTerm < request.term))
      rw [hmiss, Act.run_bind_ok (Act.run_lift _ _), if_pos rfl, Act.run_bind_ok hw] at hrun
      cases hrun
      exact ⟨_, rfl⟩
    · have hmatch : n.Matches request := by
        rw [Matches, hlog] at hmatch
        exact hmatch
      obtain ⟨hmerge, -⟩ := mergeEntries_spec request.entries n.log request.prevLogIndex
        (decide (n.currentTerm < request.term)) hmatch.1
      rw [hmiss, Act.run_bind_ok (Act.run_lift _ _), if_neg (by simp), Act.run_bind_ok (Act.run_modify _ _),
        hlog] at hrun
      obtain ⟨w, hw⟩ := persistIf_ok
        (n := { n.follow request with
          log := (mergeEntries n.log request.prevLogIndex (decide (n.currentTerm < request.term))
            request.entries).1 })
        (by rw [hmerge]; exact hp' hmatch)
        (mergeEntries n.log request.prevLogIndex (decide (n.currentTerm < request.term)) request.entries).2
      rw [Act.run_bind_ok hw, Act.run_bind_ok (Act.run_modify _ _)] at hrun
      cases hrun
      exact ⟨_, rfl⟩
  obtain ⟨response, rfl⟩ := hok
  rcases appendEntries_took hrun with ⟨-, hlt, -⟩ | htook
  · exact absurd hlt (not_lt.2 hle)
  · rcases htook.outcome with ⟨⟨m, hr⟩, -, hsame, -⟩ | ⟨hr, -⟩ | ⟨⟨e, he⟩, -⟩
    · cases hr
      exact ⟨_, n', hrun, rfl, htook.term, fun _ => hsame⟩
    · cases hr
      exact ⟨_, n', hrun, rfl, htook.term, fun hf => by cases hf⟩
    · cases he

end RaftNode

namespace RaftCluster

/-! ## The first loop -/

section Loop
variable {c c' : RaftCluster} {g : History} {leader follower t : U64} {l : List Entry}

/-- A round of the inner loop, at a follower that is not ahead. -/
theorem Leading.tryAppend_ok {prev : ℕ} (h : Leading c g leader t l) (hmem : follower ∈ c.ids)
    (hprev : prev ≤ l.length) (hl : Persistable l) (hp : Persistable (c.nodes follower).log)
    (hle : (c.nodes follower).currentTerm ≤ t) :
    ∃ m n', (RaftCluster.tryAppend leader follower t l (c.nodes leader).commitIndex prev).run c =
      (.ok m, c.setNode follower n') ∧ n'.currentTerm = t ∧ (m = none → Persistable n'.log) := by
  obtain ⟨u, hu, hprevTerm⟩ := prevLogTerm_spec hprev
  have hbehind : (c.nodes follower).currentTerm ≤
      (AppendEntries.mk t leader prev u (l.drop prev) (c.nodes leader).commitIndex).term := hle
  obtain ⟨response, n', hnode, hterm, hterm', hsame⟩ := RaftNode.appendEntries_ok hbehind hp
    fun hmatch => by
      rw [h.take_eq hmem hmatch hprevTerm]
      exact (List.take_append_drop prev l).symm ▸ hl
  refine ⟨if response.success then some response.matchIndex else none, n', ?_, hterm', fun hm => ?_⟩
  · rw [RaftCluster.tryAppend, hu, Act.run_bind_ok (Act.run_lift _ c), Act.run_bind_ok (onNode_of_run hnode),
      if_neg (by rw [hterm]; exact lt_irrefl _)]
    rfl
  · have hfail : response.success = false := by
      by_contra hs
      rw [if_pos (by simpa using hs)] at hm
      cases hm
    rw [hsame hfail]
    exact hp

/-- **The inner loop** does not fail at a follower that is not ahead. -/
theorem Leading.matchFollower_ok (hl : Persistable l) (hne : leader ≠ follower) (prev : ℕ) :
    ∀ {c : RaftCluster}, Leading c g leader t l → follower ∈ c.ids → prev ≤ l.length →
    Persistable (c.nodes follower).log → (c.nodes follower).currentTerm ≤ t →
    ∃ m c', (RaftCluster.matchFollower leader follower t l (c.nodes leader).commitIndex prev).run c =
      (.ok m, c') := by
  induction prev with
  | zero =>
    intro c h hmem hprev hp hle
    obtain ⟨m, n', hrun, -⟩ := h.tryAppend_ok hmem hprev hl hp hle
    exact ⟨_, _, by rw [RaftCluster.matchFollower, Act.run_bind_ok hrun]; rfl⟩
  | succ prev ih =>
    intro c h hmem hprev hp hle
    obtain ⟨m, n', hrun, hterm, hnone⟩ := h.tryAppend_ok hmem hprev hl hp hle
    rw [RaftCluster.matchFollower, Act.run_bind_ok hrun]
    cases m with
    | some index => exact ⟨index, _, rfl⟩
    | none =>
      obtain ⟨-, -, hlead⟩ := h.tryAppend hmem hne hprev hrun
      obtain ⟨n'', hc', hlead, -⟩ := hlead none rfl
      have hsame : (c.setNode follower n').nodes leader = c.nodes leader := setNode_of_ne hne
      rw [← hsame]
      exact ih hlead hmem (Nat.le_of_succ_le hprev) (by rw [setNode_self]; exact hnone rfl)
        (by rw [setNode_self]; exact hterm.le)

/-- A request to a follower that is ahead fails. -/
theorem tryAppend_ahead {prev : ℕ} {commit : ℕ} (hlt : t < (c.nodes follower).currentTerm) {m : Option ℕ} :
    (tryAppend leader follower t l commit prev).run c ≠ (.ok m, c') := by
  intro hrun
  rw [tryAppend] at hrun
  obtain ⟨u, c₁, hu, hrun⟩ := Act.run_bind_eq_ok.1 hrun
  rw [Act.run_lift] at hu
  obtain ⟨-, rfl⟩ := Prod.mk.inj hu
  have hnode : (RaftNode.appendEntries ⟨t, leader, prev, u, l.drop prev, commit⟩).run (c.nodes follower) =
      (.ok ⟨(c.nodes follower).currentTerm, false, (c.nodes follower).lastLogIndex⟩, c.nodes follower) := by
    rw [RaftNode.appendEntries, Act.run_bind_ok (Act.run_gets _ _), if_pos hlt]
    rfl
  rw [Act.run_bind_ok (onNode_of_run hnode), if_pos hlt] at hrun
  obtain ⟨v, c₂, -, hrun⟩ := Act.run_bind_eq_ok.1 hrun
  cases hrun

theorem matchFollower_ahead {prev commit m : ℕ} (hlt : t < (c.nodes follower).currentTerm) :
    (matchFollower leader follower t l commit prev).run c ≠ (.ok m, c') := by
  intro hrun
  cases prev with
  | zero =>
    rw [matchFollower] at hrun
    obtain ⟨k, c₁, htry, -⟩ := Act.run_bind_eq_ok.1 hrun
    exact tryAppend_ahead hlt htry
  | succ prev =>
    rw [matchFollower] at hrun
    obtain ⟨k, c₁, htry, -⟩ := Act.run_bind_eq_ok.1 hrun
    exact tryAppend_ahead hlt htry

/-- The followers that a leader reaches and that do not stop it. -/
structure Willing (c : RaftCluster) (leader t follower : U64) : Prop where
  behind : (c.nodes follower).currentTerm ≤ t
  persistable : Persistable (c.nodes follower).log

/-- **The first loop of `replicate_existing`** does not fail if no follower is ahead. -/
theorem Leading.matchFollowers_ok (hl : Persistable l) (followers : List U64) : ∀ {c : RaftCluster},
    Leading c g leader t l → followers.Nodup → (∀ q ∈ followers, q ∈ c.ids) →
    (∀ q ∈ followers, q ≠ leader → c.cutOff leader q = false → Willing c leader t q) →
    ∃ indices c', (RaftCluster.matchFollowers leader t l (c.nodes leader).commitIndex followers).run c =
      (.ok indices, c') := by
  induction followers with
  | nil => exact fun {c} _ _ _ _ => ⟨[], c, rfl⟩
  | cons follower followers ih =>
    intro c h hnodup hmem hwilling
    obtain ⟨hnotin, hnodup⟩ := List.nodup_cons.1 hnodup
    have hmem' : ∀ q ∈ followers, q ∈ c.ids := fun q hq => hmem q (List.mem_cons_of_mem _ hq)
    have hwilling' : ∀ q ∈ followers, q ≠ leader → c.cutOff leader q = false → Willing c leader t q :=
      fun q hq => hwilling q (List.mem_cons_of_mem _ hq)
    rw [RaftCluster.matchFollowers, Act.run_bind_ok (Act.run_gets _ c)]
    by_cases heq : follower = leader
    · rw [if_pos heq]
      exact ih h hnodup hmem' hwilling'
    rw [if_neg heq]
    have hne : leader ≠ follower := fun h => heq h.symm
    cases hcut : c.cutOff leader follower with
    | true =>
      obtain ⟨indices, c', hrest⟩ := ih h hnodup hmem' hwilling'
      rw [if_pos rfl, Act.run_bind_ok (Act.run_pure 0 c), Act.run_bind_ok hrest]
      exact ⟨_, c', rfl⟩
    | false =>
      obtain ⟨hbehind, hp⟩ := hwilling follower List.mem_cons_self heq hcut
      have hfollower := hmem follower List.mem_cons_self
      obtain ⟨m, c₁, hloop⟩ := h.matchFollower_ok hl hne l.length hfollower le_rfl hp hbehind
      obtain ⟨-, -, hlead⟩ := h.matchFollower l.length hfollower hne le_rfl hloop
      obtain ⟨n', rfl, hlead, -⟩ := hlead m rfl
      have hself : (c.setNode follower n').nodes leader = c.nodes leader := setNode_of_ne hne
      obtain ⟨indices, c', hrest⟩ := ih hlead hnodup hmem' fun q hq hql hcut' => by
        have hqf : q ≠ follower := fun h => hnotin (h ▸ hq)
        rw [(sameNet_setNode c follower n').cutOff] at hcut'
        obtain ⟨h1, h2⟩ := hwilling' q hq hql hcut'
        exact ⟨by rw [setNode_of_ne hqf]; exact h1, by rw [setNode_of_ne hqf]; exact h2⟩
      rw [hself] at hrest
      rw [if_neg (by simp), Act.run_bind_ok hloop, Act.run_bind_ok hrest]
      exact ⟨_, c', rfl⟩

/-- **The first loop of `replicate_existing`** fails if a follower is ahead. -/
theorem Leading.matchFollowers_behind (followers : List U64) : ∀ {c c' : RaftCluster} {indices : List ℕ},
    Leading c g leader t l → followers.Nodup → (∀ q ∈ followers, q ∈ c.ids) →
    (RaftCluster.matchFollowers leader t l (c.nodes leader).commitIndex followers).run c = (.ok indices, c') →
    ∀ q ∈ followers, q ≠ leader → c.cutOff leader q = false → (c.nodes q).currentTerm ≤ t := by
  induction followers with
  | nil => exact fun _ _ _ _ q hq => (nomatch hq)
  | cons follower followers ih =>
    intro c c' indices h hnodup hmem hrun
    obtain ⟨hnotin, hnodup⟩ := List.nodup_cons.1 hnodup
    have hmem' : ∀ q ∈ followers, q ∈ c.ids := fun q hq => hmem q (List.mem_cons_of_mem _ hq)
    rw [RaftCluster.matchFollowers, Act.run_bind_ok (Act.run_gets _ c)] at hrun
    by_cases heq : follower = leader
    · rw [if_pos heq] at hrun
      intro q hq hql
      exact ih h hnodup hmem' hrun q ((List.mem_cons.1 hq).resolve_left fun h => hql (h.trans heq)) hql
    rw [if_neg heq] at hrun
    have hne : leader ≠ follower := fun h => heq h.symm
    cases hcut : c.cutOff leader follower with
    | true =>
      rw [hcut, if_pos rfl, Act.run_bind_ok (Act.run_pure 0 c)] at hrun
      obtain ⟨indices', c₁, hrest, -⟩ := Act.run_bind_eq_ok.1 hrun
      intro q hq hql hq'
      refine ih h hnodup hmem' hrest q ((List.mem_cons.1 hq).resolve_left ?_) hql hq'
      rintro rfl
      rw [hcut] at hq'
      cases hq'
    | false =>
      rw [hcut, if_neg (by simp)] at hrun
      obtain ⟨m, c₁, hloop, hrun⟩ := Act.run_bind_eq_ok.1 hrun
      obtain ⟨indices', c₂, hrest, -⟩ := Act.run_bind_eq_ok.1 hrun
      have hfollower := hmem follower List.mem_cons_self
      obtain ⟨-, -, hlead⟩ := h.matchFollower l.length hfollower hne le_rfl hloop
      obtain ⟨n', rfl, hlead, -⟩ := hlead m rfl
      have hself : (c.setNode follower n').nodes leader = c.nodes leader := setNode_of_ne hne
      rw [← hself] at hrest
      intro q hq hql hq'
      rcases List.mem_cons.1 hq with rfl | hq
      · by_contra hlt
        exact matchFollower_ahead (not_le.1 hlt) hloop
      · have hqf : q ≠ follower := fun h => hnotin (h ▸ hq)
        have := ih hlead hnodup hmem' hrest q hq hql
          (by rw [(sameNet_setNode c follower n').cutOff]; exact hq')
        rwa [setNode_of_ne hqf] at this

end Loop

/-! ## Replicating -/

/-- The followers that a leader reaches. -/
def reached (c : RaftCluster) (leader : U64) : List U64 :=
  (c.ids.filter fun q => decide (q ≠ leader)).filter fun q => !c.cutOff leader q

section Replicate
variable {c c' : RaftCluster} {g : History} {leader t : U64} {l : List Entry}

theorem mem_reached {q : U64} : q ∈ c.reached leader ↔ q ∈ c.ids ∧ q ≠ leader ∧ c.cutOff leader q = false := by
  simp only [reached, List.mem_filter, decide_eq_true_eq, Bool.not_eq_true', and_assoc]

/-- **`replicate_existing`** does not fail if no follower is ahead. -/
theorem Leading.replicateExisting_ok (h : Leading c g leader t l) (hl : Persistable l)
    (hwilling : ∀ q ∈ c.reached leader, Willing c leader t q) :
    ∃ k c', (RaftCluster.replicateExisting leader).run c = (.ok k, c') := by
  obtain ⟨indices, c₁, hloop⟩ := h.matchFollowers_ok hl c.ids h.good.nodup (fun q hq => hq)
    fun q hq hql hcut => hwilling q (mem_reached.2 ⟨hq, hql, hcut⟩)
  obtain ⟨hgood, hnet, -⟩ := h.matchFollowers c.ids h.good.nodup (fun q hq => hq) hloop
  obtain ⟨r, c', hrun⟩ : ∃ r c', (RaftCluster.replicateExisting leader).run c = (r, c') := ⟨_, _, rfl⟩
  have hsent : Sent c c₁ (c.nodes leader) leader c.ids := by
    have hloop' := hloop
    rw [← h.term, ← h.log] at hloop'
    rcases matchFollowers_sent c.ids rfl h.good.nodup hloop' with ⟨-, hsent⟩ | ⟨⟨e, he⟩, -⟩
    · exact hsent
    · cases he
  have hfinish := hrun
  rw [RaftCluster.replicateExisting, Act.run_bind_ok (Act.run_gets _ c)] at hfinish
  dsimp only at hfinish
  rw [h.term, h.log, Act.run_bind_ok hloop, ← hnet.1, ← h.term, ← h.log] at hfinish
  obtain ⟨-, hok⟩ := finish_run (hnet.1 ▸ h.good.nodup) (fun q hq hql hcut => by
    rw [hnet.cutOff] at hcut
    exact (hsent.reached q (hnet.1 ▸ hq) hql hcut).inStep) hfinish
  obtain ⟨⟨k, rfl⟩, -⟩ := hok fun q hq =>
    ⟨(hgood.node q hq).le, (hgood.inv.commit q (List.mem_toFinset.2 hq)).1⟩
  exact ⟨k, c', hrun⟩

/-- What a successful `replicate_existing` achieves. -/
theorem Leading.replicateExisting_run {k : ℕ} (h : Leading c g leader t l)
    (hrun : (RaftCluster.replicateExisting leader).run c = (.ok k, c')) :
    Converged c c' leader ∧
      (c'.nodes leader).commitIndex =
        ((c.nodes leader).advanceCommit (c.matchIndices leader l c.ids)).commitIndex ∧
      ∀ q ∈ c.reached leader, (c.nodes q).currentTerm ≤ t := by
  have hsync : (RaftCluster.synchronize leader).run c = (.ok (), c') := by
    rw [RaftCluster.synchronize, Act.run_bind_ok hrun]
    rfl
  have hlead : Leading c g leader (c.nodes leader).currentTerm (c.nodes leader).log :=
    ⟨h.good, h.mem, h.role, rfl, rfl⟩
  obtain ⟨-, hconv⟩ := converged_of_leading hlead hsync
  rcases synchronize_run h.good.nodup hsync with ⟨indices, c₁, hloop, hsent, hfin, -⟩ | ⟨-, ⟨e, he⟩, -⟩
  · obtain ⟨-, -, hmatched⟩ := hlead.matchFollowers c.ids h.good.nodup (fun q hq => hq) hloop
    obtain ⟨j, hleads⟩ := hfin.leads
    refine ⟨hconv rfl, ?_, fun q hq => ?_⟩
    · rw [hleads, hsent.same leader (Or.inl rfl), (hmatched indices rfl).indices, h.log]
    · obtain ⟨h1, h2, h3⟩ := mem_reached.1 hq
      rw [← h.term]
      exact hlead.matchFollowers_behind c.ids h.good.nodup (fun q hq => hq) hloop q h1 h2 h3
  · cases he

/-- **The last entry is committed** if and only if a majority is reached. -/
theorem Leading.commit_last {e : Entry} (h : Leading c g leader t (l ++ [e])) (he : e.term = t)
    (hcommit : (c.nodes leader).commitIndex ≤ l.length) :
    ((c.nodes leader).advanceCommit (c.matchIndices leader (l ++ [e]) c.ids)).commitIndex = l.length + 1 ↔
      c.ids.length < 2 * ((c.reached leader).length + 1) := by
  have hlen : (c.nodes leader).log.length = l.length + 1 := by rw [h.log]; simp
  have hcan : (c.nodes leader).canCommit (c.matchIndices leader (l ++ [e]) c.ids) (l.length + 1) = true ↔
      c.ids.length < 2 * ((c.reached leader).length + 1) := by
    have hget : (c.nodes leader).log[l.length + 1 - 1]?.map Entry.term = some (c.nodes leader).currentTerm := by
      rw [h.log, h.term, ← he]
      simp
    have hall : 0 < c.ids.length := List.length_pos_of_mem h.mem
    rw [RaftNode.canCommit, length_filter_matchIndices c.ids (by omega) (by simp), matchIndices, List.length_map,
      length_others h.good.nodup h.mem, Bool.and_eq_true, decide_eq_true_eq, decide_eq_true_eq, ← reached]
    exact ⟨fun h => by omega, fun h => ⟨by omega, hget⟩⟩
  rw [← hcan]
  constructor
  · intro heq
    rcases RaftNode.advanceCommit_spec (c.nodes leader) (c.matchIndices leader (l ++ [e]) c.ids) with
      hsame | ⟨i, -, -, hi, hcan⟩
    · rw [hsame] at heq
      omega
    · rw [hi] at heq
      exact heq ▸ hcan
  · intro hcan
    have hle : (c.nodes leader).log.length ≥
        ((c.nodes leader).advanceCommit (c.matchIndices leader (l ++ [e]) c.ids)).commitIndex := by
      rcases RaftNode.advanceCommit_spec (c.nodes leader) (c.matchIndices leader (l ++ [e]) c.ids) with
        hsame | ⟨i, -, hle, hi, -⟩
      · rw [hsame]
        omega
      · rw [hi]
        exact hle
    by_contra hne
    have hbelow : ((c.nodes leader).advanceCommit (c.matchIndices leader (l ++ [e]) c.ids)).commitIndex <
        l.length + 1 := by
      omega
    have hcannot := RaftNode.advanceCommit_greatest h.role hbelow hlen.ge
    rw [hcan] at hcannot
    cases hcannot

/-- **Appending as leader**, when the log can be written. -/
theorem appendAsLeader_ok {command : Bytes} (hrole : (c.nodes leader).role = .leader)
    (hp : Persistable ((c.nodes leader).log ++ [⟨(c.nodes leader).currentTerm, command⟩])) :
    ∃ n', (onNode leader (RaftNode.appendAsLeader command)).run c =
      (.ok ((c.nodes leader).log.length + 1), c.setNode leader n') := by
  obtain ⟨w, hw⟩ := RaftNode.persist_ok (n := { c.nodes leader with
    log := (c.nodes leader).log ++ [⟨(c.nodes leader).currentTerm, command⟩] }) hp
  refine ⟨{ c.nodes leader with
    log := (c.nodes leader).log ++ [⟨(c.nodes leader).currentTerm, command⟩], wal := w }, onNode_of_run ?_⟩
  rw [RaftNode.appendAsLeader, Act.run_bind_ok (Act.run_gets _ _), if_neg (by simpa using hrole),
    Act.run_bind_ok (Act.run_modify _ _), Act.run_bind_ok hw, Act.run_gets]
  refine Prod.ext ?_ rfl
  simp [RaftNode.lastLogIndex]

/-- What the cluster must be like for a leader to get a command acknowledged. -/
structure Serves (c : RaftCluster) (leader : U64) (command : Bytes) : Prop where
  mem : leader ∈ c.ids
  running : leader ∉ c.stopped
  role : (c.nodes leader).role = .leader
  persistable : Persistable ((c.nodes leader).log ++ [⟨(c.nodes leader).currentTerm, command⟩])
  behind : ∀ q ∈ c.reached leader, (c.nodes q).currentTerm ≤ (c.nodes leader).currentTerm
  quorum : c.ids.length < 2 * ((c.reached leader).length + 1)

/-- What an acknowledged command has led to. -/
structure Acknowledged (c c' : RaftCluster) (leader : U64) (command : Bytes) (i : ℕ) : Prop where
  index : i = (c.nodes leader).log.length + 1
  applied : ∀ q, q = leader ∨ q ∈ c.reached leader →
    (c'.nodes q).log = (c.nodes leader).log ++ [⟨(c.nodes leader).currentTerm, command⟩] ∧
      (c'.nodes q).commitIndex = i ∧
      c'.applied q = (c.nodes leader).log.map Entry.command ++ [command]

/-- The cluster after the leader has appended a command. -/
structure Appended (c c₁ : RaftCluster) (g : History) (leader : U64) (command : Bytes) : Prop where
  leading : Leading c₁ g leader (c.nodes leader).currentTerm
    ((c.nodes leader).log ++ [⟨(c.nodes leader).currentTerm, command⟩])
  commit : (c₁.nodes leader).commitIndex ≤ (c.nodes leader).log.length
  same : ∀ q, q ≠ leader → c₁.nodes q = c.nodes q
  ids : c₁.ids = c.ids
  reached : c₁.reached leader = c.reached leader

theorem Good.appended {command : Bytes} {index : ℕ} {c₁ : RaftCluster} (h : Good c g) (hmem : leader ∈ c.ids)
    (hrun : (onNode leader (RaftNode.appendAsLeader command)).run c = (.ok index, c₁)) :
    ∃ g', Appended c c₁ g' leader command ∧ index = (c.nodes leader).log.length + 1 ∧
      Persistable ((c.nodes leader).log ++ [⟨(c.nodes leader).currentTerm, command⟩]) ∧
      (c.nodes leader).role = .leader := by
  obtain ⟨g', -, hlead⟩ := h.appendAsLeader hmem hrun
  obtain ⟨hlead, hindex, hp, hcommit⟩ := hlead index rfl
  obtain ⟨n', hnode, rfl⟩ := run_onNode hrun
  have hle : (c.nodes leader).commitIndex ≤ (c.nodes leader).log.length :=
    (h.inv.commit leader (List.mem_toFinset.2 hmem)).1
  have hrole : (c.nodes leader).role = .leader := by
    by_contra hrole
    rw [RaftNode.appendAsLeader, Act.run_bind_ok (Act.run_gets _ _), if_pos hrole] at hnode
    cases hnode
  refine ⟨g', ⟨hlead, hcommit.trans_le hle, fun q hq => setNode_of_ne hq, rfl, ?_⟩, hindex, hlead.log ▸ hp, hrole⟩
  simp only [reached, setNode_ids, (sameNet_setNode c leader n').cutOff]

/-- **The last entry after `replicate_existing`**: everyone who is reached has applied it. -/
theorem Appended.acknowledged {command : Bytes} {c₁ : RaftCluster} {k : ℕ} (h : Appended c c₁ g leader command)
    (hrun : (RaftCluster.replicateExisting leader).run c₁ = (.ok k, c')) (hle :
      (c.nodes leader).log.length + 1 ≤ (c'.nodes leader).commitIndex) :
    Acknowledged c c' leader command ((c.nodes leader).log.length + 1) := by
  obtain ⟨hconv, -⟩ := h.leading.replicateExisting_run hrun
  obtain ⟨g', hev, -⟩ := h.leading.replicateExisting hrun
  have hids : c'.ids = c.ids := hconv.ids.trans h.ids
  -- a node with the log of the leader that has committed it has applied it
  have hnode : ∀ q ∈ c.ids, (c'.nodes q).log =
      (c.nodes leader).log ++ [⟨(c.nodes leader).currentTerm, command⟩] →
      (c'.nodes leader).commitIndex ≤ (c'.nodes q).commitIndex →
      (c'.nodes q).commitIndex = (c.nodes leader).log.length + 1 ∧
        c'.applied q = (c.nodes leader).log.map Entry.command ++ [command] := by
    intro q hq hlog hcommit
    have hq' : q ∈ c'.ids := hids ▸ hq
    have hbound : (c'.nodes q).commitIndex ≤ (c'.nodes q).log.length :=
      (hev.good.inv.commit q (List.mem_toFinset.2 hq')).1
    have hlen : (c'.nodes q).log.length = (c.nodes leader).log.length + 1 := by rw [hlog]; simp
    have heq : (c'.nodes q).commitIndex = (c.nodes leader).log.length + 1 := by omega
    refine ⟨heq, ?_⟩
    rw [(hev.good.node q hq').applied, hconv.settled.applied q hq', heq, ← hlen, List.take_length, hlog]
    simp
  refine ⟨rfl, fun q hq => ?_⟩
  have hmem : leader ∈ c.ids := h.ids ▸ h.leading.mem
  have hlead := hconv.log.trans h.leading.log
  rcases hq with rfl | hq
  · exact ⟨hlead, hnode q hmem hlead le_rfl⟩
  · rw [← h.reached] at hq
    obtain ⟨h1, h2, h3⟩ := mem_reached.1 hq
    obtain ⟨hlog, hcommit⟩ := hconv.logs q h1 h2 h3
    exact ⟨hlog.trans h.leading.log, hnode q (h.ids ▸ h1) (hlog.trans h.leading.log) hcommit⟩

/-- **What an acknowledgement needs, and what it means.** -/
theorem Good.replicate_ok {command : Bytes} {index : ℕ} (h : Good c g)
    (hrun : (RaftCluster.replicate leader command).run c = (.ok index, c')) :
    Serves c leader command ∧ Acknowledged c c' leader command index := by
  rw [RaftCluster.replicate, Act.run_bind_ok (Act.run_gets _ c)] at hrun
  by_cases hstop : leader ∈ c.stopped
  · rw [if_pos hstop] at hrun
    cases hrun
  rw [if_neg hstop] at hrun
  by_cases hmem : leader ∉ c.ids
  · rw [if_pos hmem] at hrun
    cases hrun
  rw [if_neg hmem] at hrun
  have hmem := not_not.1 hmem
  obtain ⟨i, c₁, happ, hrun⟩ := Act.run_bind_eq_ok.1 hrun
  obtain ⟨k, c₂, hex, hrun⟩ := Act.run_bind_eq_ok.1 hrun
  rw [Act.run_bind_ok (Act.run_gets _ c₂)] at hrun
  obtain ⟨g', happended, rfl, hp, hrole⟩ := h.appended hmem happ
  split_ifs at hrun with hlt
  · cases hrun
  · cases hrun
    obtain ⟨-, hcommit, hbehind⟩ := happended.leading.replicateExisting_run hex
    have hack := happended.acknowledged hex (not_lt.1 hlt)
    refine ⟨⟨hmem, hstop, hrole, hp, fun q hq => ?_, ?_⟩, hack⟩
    · obtain ⟨-, hne, -⟩ := mem_reached.1 hq
      rw [← happended.same q hne]
      exact hbehind q (happended.reached ▸ hq)
    · rw [← happended.ids, ← happended.reached]
      refine (happended.leading.commit_last rfl happended.commit).1 ?_
      rw [← hcommit]
      exact (hack.applied leader (Or.inl rfl)).2.1

/-- **`replicate`** acknowledges a command when it can. -/
theorem Good.replicate_serves {command : Bytes} (h : Good c g) (hserves : Serves c leader command)
    (hps : ∀ q ∈ c.reached leader, Persistable (c.nodes q).log) :
    ∃ index c', (RaftCluster.replicate leader command).run c = (.ok index, c') := by
  obtain ⟨hmem, hstop, hrole, hp, hbehind, hquorum⟩ := hserves
  obtain ⟨n', happ⟩ := appendAsLeader_ok hrole hp
  obtain ⟨g', happended, -⟩ := h.appended hmem happ
  obtain ⟨k, c', hex⟩ := happended.leading.replicateExisting_ok hp fun q hq => by
    rw [happended.reached] at hq
    obtain ⟨-, hne, -⟩ := mem_reached.1 hq
    exact ⟨by rw [happended.same q hne]; exact hbehind q hq, by rw [happended.same q hne]; exact hps q hq⟩
  obtain ⟨-, hcommit, -⟩ := happended.leading.replicateExisting_run hex
  have hlast := (happended.leading.commit_last rfl happended.commit).2
    (by rw [happended.ids, happended.reached]; exact hquorum)
  refine ⟨(c.nodes leader).log.length + 1, c', ?_⟩
  rw [RaftCluster.replicate, Act.run_bind_ok (Act.run_gets _ c), if_neg hstop, if_neg (not_not.2 hmem),
    Act.run_bind_ok happ, Act.run_bind_ok hex, Act.run_bind_ok (Act.run_gets _ c'), hcommit, hlast,
    if_neg (lt_irrefl _)]
  rfl

theorem persistable_single : Persistable [⟨1, [7]⟩] := by
  obtain ⟨b, hb⟩ : ∃ b, b = ((PersistentState.mk 0 none [⟨1, [7]⟩]).encode.toOption).getD [] := ⟨_, rfl⟩
  refine persistable_of_encode (s := ⟨0, none, [⟨1, [7]⟩]⟩) (b := b) ?_ ?_
  · rw [hb]
    decide +kernel
  · rw [hb]
    decide +kernel

/-- Three nodes, of which the first one leads and the third one is isolated. -/
def oneIsolated : RaftCluster := firstElected.after (.isolate 3)

theorem trace_oneIsolated : Trace Step threeNodes [(firstElected, .call (.isolate 3) (.ok .unit)),
    (threeNodes, .call (.elect 1) (.ok (.won true)))] oneIsolated :=
  ((Trace.refl _).step step_firstElected).step (step_after (.isolate 3) trivial rfl)

section Acknowledges
variable {ids : List U64} {seed : U64} {c₀ : RaftCluster} {steps : List (RaftCluster × Event)} {command : Bytes}

/-- **When `replicate` acknowledges a command**, and what everyone who was reached has applied then. -/
theorem replicate_acknowledges (hopen : openCluster ids (fun _ => none) seed = .ok c₀)
    (htrace : Trace Step c₀ steps c) (hps : ∀ q ∈ c.reached leader, Persistable (c.nodes q).log) :
    ((∃ index c', (RaftCluster.replicate leader command).run c = (.ok index, c')) ↔ Serves c leader command) ∧
      ∀ index c', (RaftCluster.replicate leader command).run c = (.ok index, c') →
        Acknowledged c c' leader command index := by
  obtain ⟨g, hgood, -⟩ := (good_open hopen).trace htrace
  refine ⟨⟨?_, fun hserves => hgood.replicate_serves hserves hps⟩, fun index c' hrun => (hgood.replicate_ok hrun).2⟩
  rintro ⟨index, c', hrun⟩
  exact (hgood.replicate_ok hrun).1

theorem replicate_acknowledges_isolated : ∃ index c', (RaftCluster.replicate 1 [7]).run oneIsolated =
    (.ok index, c') ∧ index = 1 ∧ c'.applied 2 = [[7]] ∧ oneIsolated.reached 1 = [2] := by
  have hlog : (oneIsolated.nodes 1).log = [] := by decide +kernel
  have hterm : (oneIsolated.nodes 1).currentTerm = 1 := by decide +kernel
  have hreached : oneIsolated.reached 1 = [2] := by decide +kernel
  have hpeer : ∀ q ∈ oneIsolated.reached 1, q = 2 := fun q hq => by rwa [hreached, List.mem_singleton] at hq
  have hbehind : (oneIsolated.nodes 2).currentTerm = 1 := by decide +kernel
  have hempty : Persistable (oneIsolated.nodes 2).log := by
    have hlog : (oneIsolated.nodes 2).log = [] := by decide +kernel
    rw [hlog]
    exact persistable_of_encode (s := ⟨0, none, []⟩) rfl (by decide)
  have hacks : ((∃ index c', (RaftCluster.replicate 1 [7]).run oneIsolated = (.ok index, c')) ↔
      Serves oneIsolated 1 [7]) ∧ ∀ index c', (RaftCluster.replicate 1 [7]).run oneIsolated = (.ok index, c') →
        Acknowledged oneIsolated c' 1 [7] index :=
    replicate_acknowledges open_threeNodes trace_oneIsolated fun q hq => (hpeer q hq).symm ▸ hempty
  obtain ⟨hiff, hack⟩ := hacks
  obtain ⟨index, c', hrun⟩ := hiff.2 ⟨by decide +kernel, by decide +kernel, by decide +kernel, by
    rw [hlog, hterm]
    exact persistable_single, fun q hq => by rw [hterm, hpeer q hq, hbehind], by rw [hreached]; decide +kernel⟩
  obtain ⟨hindex, happlied⟩ := hack index c' hrun
  rw [hlog] at hindex happlied
  exact ⟨index, c', hrun, hindex, (happlied 2 (Or.inr (by rw [hreached]; exact List.mem_cons_self))).2.2, hreached⟩

end Acknowledges

end Replicate

end RaftCluster

end Raft

end NutDb
