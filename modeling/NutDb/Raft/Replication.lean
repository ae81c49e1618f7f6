/-
  Replication.

  After the first loop of `replicate_existing` every follower that can be reached
  is in the term of the leader and has its log, so the second loop changes
  commit indices only.  An entry that `replicate` has acknowledged is on the disks
  of a majority.
-/
import NutDb.Raft.Refine

namespace NutDb

open Lib Lib.Raft

namespace Raft

namespace RaftCluster

/-- A leader, its term and its log. -/
structure Leading (c : RaftCluster) (g : History) (leader t : U64) (l : List Entry) : Prop where
  good : Good c g
  mem : leader ∈ c.ids
  role : (c.nodes leader).role = .leader
  term : (c.nodes leader).currentTerm = t
  log : (c.nodes leader).log = l

/-- A node in the term of a leader and with its log. -/
def Synced (c : RaftCluster) (t : U64) (l : List Entry) (q : U64) : Prop :=
  (c.nodes q).currentTerm = t ∧ (c.nodes q).log = l

section Leading
variable {c c' : RaftCluster} {g : History} {leader follower t : U64} {l : List Entry}

/-- The log of a leader is the ledger of its term. -/
theorem Leading.ledger (h : Leading c g leader t l) : g.elected t = some leader ∧ l = g.ledger t := by
  obtain ⟨h1, h2⟩ := h.good.inv.leads leader (List.mem_toFinset.2 h.mem) h.role
  rw [← h.term, ← h.log]
  exact ⟨h1, h2⟩

theorem Leading.setNode {q : U64} {n' : RaftNode} (h : Leading c g leader t l) (hne : leader ≠ q)
    (hgood : Good (c.setNode q n') g) : Leading (c.setNode q n') g leader t l := by
  obtain ⟨-, h2, h3, h4, h5⟩ := h
  rw [← setNode_of_ne (c := c) (n := n') hne] at h3 h4 h5
  exact ⟨hgood, h2, h3, h4, h5⟩

theorem setNode_setNode {q : U64} {n n' : RaftNode} : (c.setNode q n).setNode q n' = c.setNode q n' := by
  simp [RaftCluster.setNode]

theorem prevLogTerm_spec {prev : ℕ} (h : prev ≤ l.length) :
    ∃ u, prevLogTerm l prev = .ok u ∧ (0 < prev → ∃ e, l[prev - 1]? = some e ∧ e.term = u) := by
  unfold prevLogTerm
  split_ifs with h0
  · exact ⟨0, rfl, fun hpos => by omega⟩
  · have hget := List.getElem?_eq_getElem (l := l) (i := prev - 1) (by omega)
    exact ⟨_, by rw [Res.get_of_getElem? hget]; rfl, fun _ => ⟨_, hget, rfl⟩⟩

/-- A follower that matches the leader at an index has its log up to there. -/
theorem Leading.take_eq (h : Leading c g leader t l) (hmem : follower ∈ c.ids)
    {request : AppendEntries} (hm : (c.nodes follower).Matches request)
    (hprev : 0 < request.prevLogIndex →
      ∃ e, l[request.prevLogIndex - 1]? = some e ∧ e.term = request.prevLogTerm) :
    (c.nodes follower).log.take request.prevLogIndex = l.take request.prevLogIndex := by
  rcases Nat.eq_zero_or_pos request.prevLogIndex with h0 | hpos
  · simp [h0]
  · obtain ⟨e, he, het⟩ := hm.2 hpos
    obtain ⟨e', he', het'⟩ := hprev hpos
    rw [← h.log] at he' ⊢
    have := h.good.inv.matching (List.mem_toFinset.2 hmem) (List.mem_toFinset.2 h.mem) he he'
      (het.trans het'.symm)
    rwa [Nat.sub_add_cancel hpos] at this

/-- **Sending entries to a follower**, such that it gets the log of the leader if it takes them. -/
theorem Leading.appendEntries {r : Res AppendResponse} {prev : ℕ} {prevTerm : U64} {entries : List Entry}
    (h : Leading c g leader t l) (hmem : follower ∈ c.ids) (hne : leader ≠ follower)
    (hprev : 0 < prev → ∃ e, l[prev - 1]? = some e ∧ e.term = prevTerm)
    (hentries : l.take prev ++ entries = l)
    (hrun : (onNode follower (RaftNode.appendEntries
      ⟨t, leader, prev, prevTerm, entries, (c.nodes leader).commitIndex⟩)).run c = (r, c')) :
    ∃ n', c' = c.setNode follower n' ∧ Leading c' g leader t l ∧ ∀ response, r = .ok response →
      t < response.term ∨ (response.term = t ∧ ((response.success = false ∧ 0 < prev) ∨
        (response.success = true ∧ response.matchIndex = prev + entries.length ∧ Synced c' t l follower))) := by
  obtain ⟨n', hnode, rfl⟩ := run_onNode hrun
  obtain ⟨s, hs⟩ := (h.good.node follower hmem).stores
  rcases RaftNode.appendEntries_spec hs hnode with ⟨rfl, hlt, m, rfl⟩ | hf
  · rw [setNode_eq_self]
    exact ⟨_, setNode_eq_self.symm, h, fun response hr => by cases hr; exact Or.inl hlt⟩
  · obtain ⟨vote, log, commit, w, hn', hvote⟩ := hf.rest
    have hterm : n'.currentTerm = t := by rw [hn']
    have hvote' : n'.votedFor = vote := by rw [hn']
    have hrole : n'.role ≠ .leader := by rw [hn']; exact fun h => (nomatch h)
    rcases hf.outcome with ⟨hpos, hlog, hcommit, hr⟩ | ⟨hmatch, hlog, hcommit, hr⟩
    · have hgood : Good (c.setNode follower n') g := by
        refine h.good.keepLog hmem hf.kept (by rw [hn']) hlog hcommit (by rw [hn']) ?_ (fun p hp hpq => ?_)
          fun hl => absurd hl hrole
        · rw [hterm, hvote']
          rcases hvote with ⟨hlt, -⟩ | ⟨heq, hv⟩
          · exact Or.inl hlt
          · exact Or.inr ⟨heq, Or.inr hv⟩
        · rw [hvote'] at hp
          rw [hterm]
          rcases hvote with ⟨-, rfl⟩ | ⟨heq, rfl⟩
          · cases hp
          · obtain ⟨h1, h2⟩ := h.good.inv.memVote follower (List.mem_toFinset.2 hmem) p hp hpq
            exact ⟨List.mem_toFinset.1 h1, heq.trans_le h2⟩
      exact ⟨n', rfl, h.setNode hne hgood, fun response hr' =>
        Or.inr ⟨(hr response hr').1, Or.inl ⟨(hr response hr').2, hpos⟩⟩⟩
    · have hl : n'.log = l := by
        rw [hlog, h.take_eq hmem hmatch hprev]
        exact hentries
      have hcov : Covered g (c.nodes leader).commitIndex n'.mem := by
        refine (h.good.inv.commit leader (List.mem_toFinset.2 h.mem)).congr ?_ (hl.trans h.log.symm)
        exact (h.term.trans hterm.symm).le
      have hgood : Good (c.setNode follower n') g := by
        refine h.good.takeLog hmem hf.kept (by rw [hn']) (by rw [hn']) ?_ ?_ ?_ hrole ?_
        · rw [hterm, h.ledger.1]; rfl
        · rw [hterm, hl]; exact h.ledger.2
        · rw [hterm, hvote']; exact hvote
        · refine hcommit.imp_right fun ⟨hlt, heq⟩ => ?_
          have hlen : (c.nodes leader).commitIndex ≤ n'.log.length := hcov.1
          rw [heq, Nat.min_eq_left hlen]
          exact ⟨hlt.le, hcov⟩
      refine ⟨n', rfl, h.setNode hne hgood, fun response hr' => Or.inr ?_⟩
      rw [hr response hr']
      refine ⟨rfl, Or.inr ⟨rfl, rfl, ?_, ?_⟩⟩
      · rw [setNode_self]; exact hterm
      · rw [setNode_self]; exact hl

/-- One round of the inner loop. -/
theorem Leading.tryAppend {r : Res (Option ℕ)} {prev : ℕ} (h : Leading c g leader t l)
    (hmem : follower ∈ c.ids) (hne : leader ≠ follower) (hprev : prev ≤ l.length)
    (hrun : (tryAppend leader follower t l (c.nodes leader).commitIndex prev).run c = (r, c')) :
    Good c' g ∧ SameNet c c' ∧ ∀ m, r = .ok m → ∃ n', c' = c.setNode follower n' ∧
      Leading c' g leader t l ∧
      ((m = none ∧ 0 < prev) ∨ (m = some l.length ∧ Synced c' t l follower)) := by
  obtain ⟨u, hu, hprevTerm⟩ := prevLogTerm_spec hprev
  rw [RaftCluster.tryAppend, hu, Act.run_bind_ok (Act.run_lift _ c)] at hrun
  rcases Act.run_bind_cases hrun with ⟨response, c₁, happ, hrun⟩ | ⟨e, happ, rfl⟩
  · obtain ⟨n', rfl, hlead, hresp⟩ := h.appendEntries hmem hne hprevTerm (List.take_append_drop prev l) happ
    by_cases hahead : response.term > t
    · rw [if_pos hahead] at hrun
      rcases Act.run_bind_cases hrun with ⟨v, c₂, hobs, hrun⟩ | ⟨e, hobs, rfl⟩
      · cases hrun
        obtain ⟨n'', rfl, hgood⟩ := hlead.good.observeTerm hlead.mem hobs
        exact ⟨hgood, ⟨rfl, rfl, rfl, rfl⟩, fun m hm => (nomatch hm)⟩
      · obtain ⟨n'', rfl, hgood⟩ := hlead.good.observeTerm hlead.mem hobs
        exact ⟨hgood, ⟨rfl, rfl, rfl, rfl⟩, fun m hm => (nomatch hm)⟩
    · rw [if_neg hahead] at hrun
      cases hrun
      refine ⟨hlead.good, ⟨rfl, rfl, rfl, rfl⟩, fun m hm => ⟨n', rfl, hlead, ?_⟩⟩
      cases hm
      rcases (hresp response rfl).resolve_left hahead with ⟨-, ⟨hfail, hpos⟩ | ⟨hok, hidx, hsync⟩⟩
      · exact Or.inl ⟨by simp [hfail], hpos⟩
      · refine Or.inr ⟨?_, hsync⟩
        rw [if_pos hok, hidx, List.length_drop, Nat.add_sub_cancel' hprev]
  · obtain ⟨n', rfl, hlead, -⟩ := h.appendEntries hmem hne hprevTerm (List.take_append_drop prev l) happ
    exact ⟨hlead.good, ⟨rfl, rfl, rfl, rfl⟩, fun m hm => (nomatch hm)⟩

/-- **The inner loop** ends with the follower in step: at index 0 every log matches. -/
theorem Leading.matchFollower (prev : ℕ) : ∀ {c : RaftCluster} {r : Res ℕ}, Leading c g leader t l →
    follower ∈ c.ids → leader ≠ follower → prev ≤ l.length →
    (matchFollower leader follower t l (c.nodes leader).commitIndex prev).run c = (r, c') →
    Good c' g ∧ SameNet c c' ∧ ∀ m, r = .ok m → ∃ n', c' = c.setNode follower n' ∧
      Leading c' g leader t l ∧ m = l.length ∧ Synced c' t l follower := by
  induction prev with
  | zero =>
    intro c r h hmem hne hprev hrun
    rw [RaftCluster.matchFollower] at hrun
    rcases Act.run_bind_cases hrun with ⟨m, c₁, htry, hrun⟩ | ⟨e, htry, rfl⟩
    · cases hrun
      obtain ⟨h1, h2, h3⟩ := h.tryAppend hmem hne hprev htry
      refine ⟨h1, h2, fun m' hm' => ?_⟩
      obtain ⟨n', hc', hlead, ⟨-, hpos⟩ | ⟨rfl, hsync⟩⟩ := h3 m rfl
      · exact absurd hpos (lt_irrefl 0)
      · cases hm'
        exact ⟨n', hc', hlead, rfl, hsync⟩
    · obtain ⟨h1, h2, -⟩ := h.tryAppend hmem hne hprev htry
      exact ⟨h1, h2, fun m hm => (nomatch hm)⟩
  | succ prev ih =>
    intro c r h hmem hne hprev hrun
    rw [RaftCluster.matchFollower] at hrun
    rcases Act.run_bind_cases hrun with ⟨m, c₁, htry, hrun⟩ | ⟨e, htry, rfl⟩
    · obtain ⟨-, h2, h3⟩ := h.tryAppend hmem hne hprev htry
      obtain ⟨n', rfl, hlead, ⟨rfl, -⟩ | ⟨rfl, hsync⟩⟩ := h3 m rfl
      · have hcommit : (c.setNode follower n').nodes leader = c.nodes leader := setNode_of_ne hne
        rw [← hcommit] at hrun
        obtain ⟨h4, h5, h6⟩ := ih hlead hmem hne (Nat.le_of_succ_le hprev) hrun
        refine ⟨h4, h2.trans h5, fun m hm => ?_⟩
        obtain ⟨n'', hc', hlead', hm', hsync⟩ := h6 m hm
        exact ⟨n'', by rw [hc', setNode_setNode], hlead', hm', hsync⟩
      · cases hrun
        exact ⟨hlead.good, h2, fun m hm => by cases hm; exact ⟨n', rfl, hlead, rfl, hsync⟩⟩
    · obtain ⟨h1, h2, -⟩ := h.tryAppend hmem hne hprev htry
      exact ⟨h1, h2, fun m hm => (nomatch hm)⟩

theorem SameNet.cutOff (h : SameNet c c') (a b : U64) : c'.cutOff a b = c.cutOff a b := by
  simp only [RaftCluster.cutOff, reachable, h.2.1, h.2.2.1]

/-- What the first loop reports for the followers. -/
def matchIndices (c : RaftCluster) (leader : U64) (l : List Entry) (followers : List U64) : List ℕ :=
  (followers.filter fun follower => decide (follower ≠ leader)).map fun follower =>
    if c.cutOff leader follower then 0 else l.length

/-- What the first loop achieves. -/
structure Matched (c c' : RaftCluster) (g : History) (leader t : U64) (l : List Entry)
    (followers : List U64) (indices : List ℕ) : Prop where
  leading : Leading c' g leader t l
  same : ∀ q, q = leader ∨ q ∉ followers → c'.nodes q = c.nodes q
  indices : indices = c.matchIndices leader l followers
  synced : ∀ q ∈ followers, q ≠ leader → c.cutOff leader q = false → Synced c' t l q

/-- The next follower is in step before the others are sent anything. -/
theorem Matched.cons {n' : RaftNode} {followers : List U64} {indices : List ℕ}
    (hne : leader ≠ follower) (hnotin : follower ∉ followers)
    (hcut : c.cutOff leader follower = false → Synced (c.setNode follower n') t l follower)
    (h : Matched (c.setNode follower n') c' g leader t l followers indices) :
    Matched c c' g leader t l (follower :: followers)
      ((if c.cutOff leader follower then 0 else l.length) :: indices) := by
  have hnet := fun q => (sameNet_setNode c follower n').cutOff leader q
  refine ⟨h.leading, fun q hq => ?_, ?_, fun q hq hql hq' => ?_⟩
  · have hqf : q ≠ follower := by
      rintro rfl
      rcases hq with rfl | hq
      · exact hne rfl
      · exact hq List.mem_cons_self
    rw [h.same q (hq.imp_right fun hq hmem => hq (List.mem_cons_of_mem _ hmem)), setNode_of_ne hqf]
  · rw [h.indices, matchIndices, matchIndices, List.filter_cons_of_pos (by simpa using hne.symm),
      List.map_cons]
    simp only [hnet]
  · rcases List.mem_cons.1 hq with rfl | hq
    · have := hcut hq'
      rw [Synced, ← h.same q (Or.inr hnotin)] at this
      exact this
    · exact h.synced q hq hql (by rw [hnet]; exact hq')

/-- **The first loop of `replicate_existing`**. -/
theorem Leading.matchFollowers (followers : List U64) : ∀ {c : RaftCluster} {r : Res (List ℕ)},
    Leading c g leader t l → followers.Nodup → (∀ q ∈ followers, q ∈ c.ids) →
    (matchFollowers leader t l (c.nodes leader).commitIndex followers).run c = (r, c') →
    Good c' g ∧ SameNet c c' ∧ ∀ indices, r = .ok indices → Matched c c' g leader t l followers indices := by
  induction followers with
  | nil =>
    intro c r h hnodup hmem hrun
    cases hrun
    exact ⟨h.good, ⟨rfl, rfl, rfl, rfl⟩, fun indices hr => by
      cases hr; exact ⟨h, fun _ _ => rfl, rfl, by simp⟩⟩
  | cons follower followers ih =>
    intro c r h hnodup hmem hrun
    obtain ⟨hnotin, hnodup⟩ := List.nodup_cons.1 hnodup
    have hmem' : ∀ q ∈ followers, q ∈ c.ids := fun q hq => hmem q (List.mem_cons_of_mem _ hq)
    rw [RaftCluster.matchFollowers, Act.run_bind_ok (Act.run_gets _ c)] at hrun
    by_cases heq : follower = leader
    · rw [if_pos heq] at hrun
      obtain ⟨h1, h2, h3⟩ := ih h hnodup hmem' hrun
      refine ⟨h1, h2, fun indices hr => ?_⟩
      obtain ⟨h4, h5, h6, h7⟩ := h3 indices hr
      refine ⟨h4, fun q hq => h5 q (hq.imp_right fun hq hmem => hq (List.mem_cons_of_mem _ hmem)), ?_, ?_⟩
      · rw [h6, matchIndices, matchIndices, List.filter_cons_of_neg (by simpa using heq)]
      · intro q hq hql
        exact h7 q ((List.mem_cons.1 hq).resolve_left fun hqf => hql (hqf.trans heq)) hql
    · rw [if_neg heq] at hrun
      have hne : leader ≠ follower := fun h => heq h.symm
      -- after the follower itself, the rest of the loop
      have hrest : ∀ (n' : RaftNode) {index : ℕ}, Leading (c.setNode follower n') g leader t l →
          (do let matched ← RaftCluster.matchFollowers leader t l (c.nodes leader).commitIndex followers
              return index :: matched : Act RaftCluster (List ℕ)).run (c.setNode follower n') = (r, c') →
          Good c' g ∧ SameNet c c' ∧ ∀ indices, r = .ok indices → ∃ indices', indices = index :: indices' ∧
            Matched (c.setNode follower n') c' g leader t l followers indices' := by
        intro n' index hlead hrun
        have hcommit : (c.setNode follower n').nodes leader = c.nodes leader := setNode_of_ne hne
        rw [← hcommit] at hrun
        rcases Act.run_bind_cases hrun with ⟨indices, c₁, hloop, hrun⟩ | ⟨e, hloop, rfl⟩
        · cases hrun
          obtain ⟨h1, h2, h3⟩ := ih hlead hnodup hmem' hloop
          exact ⟨h1, (sameNet_setNode c follower n').trans h2, fun indices' hr => by
            cases hr; exact ⟨indices, rfl, h3 indices rfl⟩⟩
        · obtain ⟨h1, h2, -⟩ := ih hlead hnodup hmem' hloop
          exact ⟨h1, (sameNet_setNode c follower n').trans h2, fun indices hr => (nomatch hr)⟩
      by_cases hcut : c.cutOff leader follower = true
      · rw [if_pos hcut, Act.run_bind_ok (Act.run_pure 0 c)] at hrun
        have hself := setNode_eq_self (c := c) (q := follower)
        obtain ⟨h1, h2, h3⟩ := hrest (c.nodes follower) (by rw [hself]; exact h) (by rw [hself]; exact hrun)
        refine ⟨h1, h2, fun indices hr => ?_⟩
        obtain ⟨indices', rfl, hmatched⟩ := h3 indices hr
        have := hmatched.cons hne hnotin (fun hc => by rw [hcut] at hc; cases hc)
        rwa [if_pos hcut] at this
      · rw [if_neg hcut] at hrun
        have hfollower := hmem follower List.mem_cons_self
        rcases Act.run_bind_cases hrun with ⟨index, c₁, hloop, hrun⟩ | ⟨e, hloop, rfl⟩
        · obtain ⟨-, -, h3⟩ := h.matchFollower l.length hfollower hne le_rfl hloop
          obtain ⟨n', rfl, hlead, rfl, hsync⟩ := h3 index rfl
          obtain ⟨h4, h5, h6⟩ := hrest n' hlead hrun
          refine ⟨h4, h5, fun indices hr => ?_⟩
          obtain ⟨indices', rfl, hmatched⟩ := h6 indices hr
          have := hmatched.cons hne hnotin fun _ => hsync
          rwa [if_neg hcut] at this
        · obtain ⟨h1, h2, -⟩ := h.matchFollower l.length hfollower hne le_rfl hloop
          exact ⟨h1, h2, fun indices hr => (nomatch hr)⟩

/-- The followers that are reported to match at an index are those that are not cut off. -/
theorem length_filter_matchIndices {i : ℕ} (followers : List U64) (hpos : 0 < i) (hle : i ≤ l.length) :
    ((c.matchIndices leader l followers).filter fun index => decide (index ≥ i)).length =
      ((followers.filter fun q => decide (q ≠ leader)).filter fun q => !c.cutOff leader q).length := by
  rw [matchIndices, List.filter_map, List.length_map]
  refine congrArg List.length (List.filter_congr fun q _ => ?_)
  cases hcut : c.cutOff leader q
  · simpa [hcut] using hle
  · simpa [hcut] using hpos.ne'

/-- **A majority is in step** if `advance_commit` takes an index. -/
theorem Leading.majority {c₀ : RaftCluster} {i : ℕ} (h : Leading c g leader t l)
    (hsync : ∀ q ∈ c.ids, q ≠ leader → c₀.cutOff leader q = false → Synced c t l q)
    (hpos : 0 < i) (hle : i ≤ l.length)
    (hcan : (c.nodes leader).canCommit (c₀.matchIndices leader l c.ids) i = true) :
    Majority c.ids.toFinset (Synced c t l) := by
  simp only [RaftNode.canCommit, Bool.and_eq_true, decide_eq_true_eq] at hcan
  rw [length_filter_matchIndices c.ids hpos hle, matchIndices, List.length_map,
    length_others h.good.nodup h.mem] at hcan
  refine majority_of_others h.good.nodup h.mem hcan.1 ⟨h.term, h.log⟩ ?_
  intro q hq hne hp
  exact hsync q hq hne (by simpa using hp)

/-- What a commit of the leader leaves behind. -/
structure Advanced (c c' : RaftCluster) (g g' : History) (leader t : U64) (l : List Entry) : Prop where
  evolves : Evolves c g c' g'
  leading : Leading c' g' leader t l
  net : SameNet c c'
  same : ∀ q, q ≠ leader → c'.nodes q = c.nodes q
  commit : (c'.nodes leader).commitIndex = (c.nodes leader).commitIndex ∨
    ((t, (c'.nodes leader).commitIndex) ∈ g'.committed ∧
      (Persistable l → (t, (c'.nodes leader).commitIndex) ∈ g'.durable))

/-- **`advance_commit`** after the first loop. -/
theorem Leading.advanceCommit (c₀ : RaftCluster) (h : Leading c g leader t l)
    (hsync : ∀ q ∈ c.ids, q ≠ leader → c₀.cutOff leader q = false → Synced c t l q) :
    ∃ g', Advanced c (c.setNode leader ((c.nodes leader).advanceCommit (c₀.matchIndices leader l c.ids)))
      g g' leader t l := by
  have hmem := List.mem_toFinset.2 h.mem
  rcases RaftNode.advanceCommit_spec (c.nodes leader) (c₀.matchIndices leader l c.ids) with
    heq | ⟨i, hlt, hle, heq, hcan⟩
  · rw [heq, setNode_eq_self]
    exact ⟨g, Evolves.refl h.good, h, ⟨rfl, rfl, rfl, rfl⟩, fun _ _ => rfl, Or.inl rfl⟩
  · rw [heq]
    have hpos : 0 < i := by omega
    have hmaj := h.majority hsync hpos (by rw [← h.log]; exact hle) hcan
    obtain ⟨e, he, het⟩ : ∃ e, (c.nodes leader).log[i - 1]? = some e ∧ e.term = (c.nodes leader).currentTerm := by
      simp only [RaftNode.canCommit, Bool.and_eq_true, decide_eq_true_eq, Option.map_eq_some_iff] at hcan
      exact hcan.2
    have hinv := h.good.inv.commit_index hmem h.role he hpos het
      (hmaj.mono fun q _ hq => ⟨hq.1.trans h.term.symm, congrArg (List.take i) (hq.2.trans h.log.symm)⟩)
    obtain ⟨c', hc'⟩ : ∃ c', c' = c.setNode leader { c.nodes leader with commitIndex := i } := ⟨_, rfl⟩
    have hgood : Good c' (g.commit t i) := by
      rw [hc', ← h.term]
      exact h.good.replace hinv (by simp [h.role]) (Or.inr ⟨rfl, Or.inl rfl⟩) rfl rfl hlt.le rfl
    have hself : c'.nodes leader = { c.nodes leader with commitIndex := i } := by rw [hc', setNode_self]
    have hother : ∀ q, q ≠ leader → c'.nodes q = c.nodes q := fun q hq => by rw [hc', setNode_of_ne hq]
    have hnet : SameNet c c' := hc' ▸ sameNet_setNode c leader _
    have hlead : ∀ {g'}, Good c' g' → Leading c' g' leader t l := fun hg =>
      ⟨hg, hnet.1 ▸ h.mem, by rw [hself]; exact h.role, by rw [hself]; exact h.term,
        by rw [hself]; exact h.log⟩
    have hevolves : ∀ {g'}, Good c' g' → g.Later g' → Evolves c g c' g' := fun hg hl =>
      ⟨hg, hl, hnet.1, fun q => by rw [hnet.2.2.2]⟩
    rw [← hc']
    by_cases hp : Persistable l
    · -- the nodes of the majority are on disk
      have hheld : Majority c'.ids.toFinset fun q => Has (g.commit t i) t i (c'.world.mem q) ∧
          Has (g.commit t i) t i (c'.world.disk q) := by
        rw [hnet.1]
        refine hmaj.mono fun q hq hs => ?_
        have hs' : Synced c' t l q := by
          by_cases hql : q = leader
          · rw [hql, Synced, hself]; exact ⟨h.term, h.log⟩
          · rw [Synced, hother q hql]; exact hs
        have hdisk := hgood.disk_eq (q := q) (by rw [hnet.1]; exact List.mem_toFinset.1 hq) (hs'.2 ▸ hp)
        have hhas : Has (g.commit t i) t i (c'.nodes q).mem :=
          ⟨hs'.1.ge, congrArg (List.take i) (hs'.2.trans h.ledger.2)⟩
        exact ⟨hhas, show Has (g.commit t i) t i (c'.nodes q).disk by rw [hdisk]; exact hhas⟩
      obtain ⟨hinv', hlater⟩ := hgood.inv.persist (Set.mem_insert _ _) hheld
      have hgood' : Good c' ((g.commit t i).persist t i) := ⟨hgood.nodup, hgood.node, hinv'⟩
      refine ⟨_, hevolves hgood' ((commit_later i).trans hlater), hlead hgood', hnet, hother, Or.inr ?_⟩
      rw [hself]
      exact ⟨Set.mem_insert _ _, fun _ => Set.mem_insert _ _⟩
    · refine ⟨_, hevolves hgood (commit_later i), hlead hgood, hnet, hother, Or.inr ?_⟩
      rw [hself]
      exact ⟨Set.mem_insert _ _, fun hp' => absurd hp' hp⟩

/-- **The second loop of `replicate_existing`** keeps the leader. -/
theorem Leading.publish (followers : List U64) : ∀ {c : RaftCluster} {r : Res Unit},
    Leading c g leader t l → followers.Nodup → (∀ q ∈ followers, q ∈ c.ids) →
    (∀ q ∈ followers, q ≠ leader → c.cutOff leader q = false → Synced c t l q) →
    (publish leader t l (c.nodes leader).commitIndex followers).run c = (r, c') →
    Leading c' g leader t l ∧ SameNet c c' ∧ c'.nodes leader = c.nodes leader := by
  induction followers with
  | nil =>
    intro c r h _ _ _ hrun
    cases hrun
    exact ⟨h, ⟨rfl, rfl, rfl, rfl⟩, rfl⟩
  | cons follower followers ih =>
    intro c r h hnodup hmem hsync hrun
    obtain ⟨hnotin, hnodup⟩ := List.nodup_cons.1 hnodup
    have hmem' : ∀ q ∈ followers, q ∈ c.ids := fun q hq => hmem q (List.mem_cons_of_mem _ hq)
    rw [RaftCluster.publish, Act.run_bind_ok (Act.run_gets _ c)] at hrun
    by_cases hskip : follower = leader ∨ c.cutOff leader follower = true
    · rw [if_pos hskip] at hrun
      exact ih h hnodup hmem' (fun q hq => hsync q (List.mem_cons_of_mem _ hq)) hrun
    · rw [if_neg hskip] at hrun
      obtain ⟨heq, hcut⟩ := not_or.1 hskip
      have hne : leader ≠ follower := fun h => heq h.symm
      obtain ⟨-, hlog⟩ := hsync follower List.mem_cons_self heq (by simpa using hcut)
      have hlen : (c.nodes follower).lastLogIndex = l.length := by rw [RaftNode.lastLogIndex, hlog]
      obtain ⟨u, hu, hprev⟩ := prevLogTerm_spec (le_refl l.length)
      rw [hlen] at hrun
      dsimp only at hrun
      rw [hu, Act.run_bind_ok (Act.run_lift _ c)] at hrun
      rcases Act.run_bind_cases hrun with ⟨response, c₁, happ, hrun⟩ | ⟨e, happ, rfl⟩
      · obtain ⟨n', rfl, hlead, -⟩ :=
          h.appendEntries (hmem follower List.mem_cons_self) hne hprev (by simp) happ
        have hself : (c.setNode follower n').nodes leader = c.nodes leader := setNode_of_ne hne
        rw [← hself] at hrun
        have hsync' : ∀ q ∈ followers, q ≠ leader → (c.setNode follower n').cutOff leader q = false →
            Synced (c.setNode follower n') t l q := by
          intro q hq hql hcut'
          have hqf : q ≠ follower := fun h => hnotin (h ▸ hq)
          rw [Synced, setNode_of_ne hqf]
          rw [(sameNet_setNode c follower n').cutOff] at hcut'
          exact hsync q (List.mem_cons_of_mem _ hq) hql hcut'
        obtain ⟨h1, h2, h3⟩ := ih hlead hnodup hmem' hsync' hrun
        exact ⟨h1, (sameNet_setNode c follower n').trans h2, h3.trans hself⟩
      · obtain ⟨n', rfl, hlead, -⟩ :=
          h.appendEntries (hmem follower List.mem_cons_self) hne hprev (by simp) happ
        exact ⟨hlead, sameNet_setNode c follower n', setNode_of_ne hne⟩

end Leading

/-! ## Applying -/

section Apply
variable {c c' : RaftCluster} {g : History}

/-- **One round of `apply_all`**. -/
theorem Good.applyNode {q : U64} {r : Res Unit} (h : Good c g) (hq : q ∈ c.ids)
    (hrun : (applyNode q).run c = (r, c')) :
    Evolves c g c' g ∧ ∀ p, (c'.nodes p).commitIndex = (c.nodes p).commitIndex := by
  have hok := h.node q hq
  have hlen := (h.inv.commit q (List.mem_toFinset.2 hq)).1
  obtain ⟨entries, htake, hlog⟩ := RaftNode.takeApplied_spec hok.le hlen
  rw [RaftCluster.applyNode, Act.run_bind_ok (Act.run_gets _ c), htake,
    Act.run_bind_ok (Act.run_lift _ c)] at hrun
  cases hrun
  have hnodes : ∀ p, ∃ k, Function.update c.nodes q
      { c.nodes q with lastApplied := (c.nodes q).commitIndex } p = { c.nodes p with lastApplied := k } := by
    intro p
    by_cases hp : p = q
    · exact ⟨(c.nodes q).commitIndex, by rw [hp, Function.update_self]⟩
    · exact ⟨(c.nodes p).lastApplied, by rw [Function.update_of_ne hp]⟩
  refine ⟨⟨⟨h.nodup, fun p hp => ?_, ?_⟩, Ghost.Later.refl g, rfl, fun p => ?_⟩, fun p => ?_⟩
  · have hp' := h.node p hp
    by_cases hpq : p = q
    · subst hpq
      refine ⟨?_, ?_, ?_, ?_⟩
      · simpa using hok.id
      · simpa using hok.stores
      · simp
      · simp only [Function.update_self]
        rw [hlog, List.map_append, hok.applied]
    · obtain ⟨h1, h2, h3, h4⟩ := hp'
      refine ⟨?_, ?_, ?_, ?_⟩
      · simpa [hpq] using h1
      · simpa [hpq] using h2
      · simpa [hpq] using h3
      · simpa [hpq] using h4
  · -- the protocol does not see what is applied
    have hview : ∀ {β : Type} (f : RaftNode → β), (∀ n k, f { n with lastApplied := k } = f n) →
        (fun p => f (Function.update c.nodes q
          { c.nodes q with lastApplied := (c.nodes q).commitIndex } p)) = fun p => f (c.nodes p) := by
      intro β f hf
      funext p
      obtain ⟨k, hk⟩ := hnodes p
      rw [hk, hf]
    convert h.inv using 1
    simp only [world, World.mk.injEq]
    exact ⟨hview RaftNode.mem fun _ _ => rfl, hview RaftNode.disk fun _ _ => rfl,
      hview (fun n => n.role = .leader) fun _ _ => rfl, hview RaftNode.commitIndex fun _ _ => rfl⟩
  · by_cases hpq : p = q
    · rw [hpq]
      simp only [Function.update_self]
      exact List.prefix_append _ _
    · simp only [Function.update_of_ne hpq]
      exact List.prefix_refl _
  · obtain ⟨k, hk⟩ := hnodes p
    simp only [hk]

/-- **`apply_all`**. -/
theorem Good.applyAll (ids : List U64) : ∀ {c : RaftCluster} {r : Res Unit}, Good c g →
    (∀ q ∈ ids, q ∈ c.ids) → (applyAll ids).run c = (r, c') →
    Evolves c g c' g ∧ ∀ p, (c'.nodes p).commitIndex = (c.nodes p).commitIndex := by
  induction ids with
  | nil =>
    intro c r h _ hrun
    cases hrun
    exact ⟨Evolves.refl h, fun _ => rfl⟩
  | cons q ids ih =>
    intro c r h hmem hrun
    rw [RaftCluster.applyAll] at hrun
    rcases Act.run_bind_cases hrun with ⟨u, c₁, happ, hrun⟩ | ⟨e, happ, rfl⟩
    · obtain ⟨h1, h2⟩ := h.applyNode (hmem q List.mem_cons_self) happ
      obtain ⟨h3, h4⟩ := ih h1.good (fun p hp => h1.ids ▸ hmem p (List.mem_cons_of_mem _ hp)) hrun
      exact ⟨h1.trans h3, fun p => (h4 p).trans (h2 p)⟩
    · exact h.applyNode (hmem q List.mem_cons_self) happ

end Apply

/-! ## Replicating -/

section Replicate
variable {c c' : RaftCluster} {g : History} {leader t : U64} {l : List Entry}

/-- **`replicate_existing`**: a new commit index is committed, and durably so if the log can be
    written. -/
theorem Leading.replicateExisting {r : Res ℕ} (h : Leading c g leader t l)
    (hrun : (replicateExisting leader).run c = (r, c')) :
    ∃ g', Evolves c g c' g' ∧ ∀ k, r = .ok k → (c'.nodes leader).commitIndex = k ∧
      (k = (c.nodes leader).commitIndex ∨ ((t, k) ∈ g'.committed ∧ (Persistable l → (t, k) ∈ g'.durable))) := by
  rw [RaftCluster.replicateExisting, Act.run_bind_ok (Act.run_gets _ c)] at hrun
  dsimp only at hrun
  rw [h.term, h.log] at hrun
  rcases Act.run_bind_cases hrun with ⟨indices, c₁, hloop, hrun⟩ | ⟨e, hloop, rfl⟩
  · obtain ⟨hgood, hnet, hmatched⟩ := h.matchFollowers c.ids h.good.nodup (fun q hq => hq) hloop
    obtain ⟨hlead, hsame, rfl, hsync⟩ := hmatched indices rfl
    have hev : Evolves c g c₁ g := hgood.evolves hnet.1 hnet.2.2.2
    obtain ⟨g', hadv⟩ := hlead.advanceCommit c (by rw [hnet.1]; exact hsync)
    rw [hnet.1] at hadv
    obtain ⟨c₂, hc₂⟩ : ∃ c₂, c₂ = c₁.setNode leader
      ((c₁.nodes leader).advanceCommit (c.matchIndices leader l c.ids)) := ⟨_, rfl⟩
    have honNode : (onNode leader (Act.modify fun n => n.advanceCommit (c.matchIndices leader l c.ids))).run c₁ =
        (.ok (), c₂) := by rw [hc₂]; rfl
    rw [← hc₂] at hadv
    rw [Act.run_bind_ok honNode, Act.run_bind_ok (Act.run_gets _ c₂)] at hrun
    have hids : c₂.ids = c.ids := hadv.net.1.trans hnet.1
    have hsync₂ : ∀ q ∈ c.ids, q ≠ leader → c₂.cutOff leader q = false → Synced c₂ t l q := by
      intro q hq hql hcut
      rw [hadv.net.cutOff, hnet.cutOff] at hcut
      rw [Synced, hadv.same q hql]
      exact hsync q hq hql hcut
    have hmem₂ : ∀ q ∈ c.ids, q ∈ c₂.ids := fun q hq => hids ▸ hq
    have hcommit : (c₂.nodes leader).commitIndex = (c.nodes leader).commitIndex ∨
        ((t, (c₂.nodes leader).commitIndex) ∈ g'.committed ∧
          (Persistable l → (t, (c₂.nodes leader).commitIndex) ∈ g'.durable)) := by
      rw [← hsame leader (Or.inl rfl)]
      exact hadv.commit
    rcases Act.run_bind_cases hrun with ⟨u, c₃, hpub, hrun⟩ | ⟨e, hpub, rfl⟩
    · obtain ⟨hlead₃, hnet₃, hself₃⟩ := hadv.leading.publish c.ids h.good.nodup hmem₂ hsync₂ hpub
      have hev₃ : Evolves c g c₃ g' := (hev.trans hadv.evolves).trans
        (hlead₃.good.evolves hnet₃.1 hnet₃.2.2.2)
      have hmem₃ : ∀ q ∈ c.ids, q ∈ c₃.ids := fun q hq => hev₃.ids ▸ hq
      rcases Act.run_bind_cases hrun with ⟨u, c₄, happly, hrun⟩ | ⟨e, happly, rfl⟩
      · cases hrun
        obtain ⟨hev₄, hcommit₄⟩ := hlead₃.good.applyAll c.ids hmem₃ happly
        refine ⟨g', hev₃.trans hev₄, fun k hr => ?_⟩
        cases hr
        exact ⟨by rw [hcommit₄, hself₃], hcommit⟩
      · exact ⟨g', hev₃.trans (hlead₃.good.applyAll c.ids hmem₃ happly).1, fun k hr => (nomatch hr)⟩
    · obtain ⟨hlead₃, hnet₃, -⟩ := hadv.leading.publish c.ids h.good.nodup hmem₂ hsync₂ hpub
      exact ⟨g', (hev.trans hadv.evolves).trans (hlead₃.good.evolves hnet₃.1 hnet₃.2.2.2),
        fun k hr => (nomatch hr)⟩
  · obtain ⟨hgood, hnet, -⟩ := h.matchFollowers c.ids h.good.nodup (fun q hq => hq) hloop
    exact ⟨g, hgood.evolves hnet.1 hnet.2.2.2, fun k hr => (nomatch hr)⟩

/-- **`synchronize`**, on a leader. -/
theorem Leading.synchronize {r : Res Unit} (h : Leading c g leader t l)
    (hrun : (synchronize leader).run c = (r, c')) : ∃ g', Evolves c g c' g' := by
  rw [RaftCluster.synchronize] at hrun
  rcases Act.run_bind_cases hrun with ⟨k, c₁, hex, hrun⟩ | ⟨e, hex, rfl⟩
  · cases hrun
    obtain ⟨g', hev, -⟩ := h.replicateExisting hex
    exact ⟨g', hev⟩
  · obtain ⟨g', hev, -⟩ := h.replicateExisting hex
    exact ⟨g', hev⟩

/-- **Appending as leader.** -/
theorem Good.appendAsLeader {command : Bytes} {r : Res ℕ} (h : Good c g) (hmem : leader ∈ c.ids)
    (hrun : (onNode leader (RaftNode.appendAsLeader command)).run c = (r, c')) :
    ∃ g', Evolves c g c' g' ∧ ∀ index, r = .ok index →
      Leading c' g' leader (c.nodes leader).currentTerm
        ((c.nodes leader).log ++ [⟨(c.nodes leader).currentTerm, command⟩]) ∧
      index = (c.nodes leader).log.length + 1 ∧ Persistable (c'.nodes leader).log ∧
      (c'.nodes leader).commitIndex = (c.nodes leader).commitIndex := by
  obtain ⟨n', hnode, rfl⟩ := run_onNode hrun
  obtain ⟨s, hs⟩ := (h.node leader hmem).stores
  rcases RaftNode.appendAsLeader_spec hs hnode with ⟨rfl, ⟨e, rfl⟩, -⟩ | ⟨hrole, w, hn', hkept, hok⟩
  · rw [setNode_eq_self]
    exact ⟨g, Evolves.refl h, fun index hr => (nomatch hr)⟩
  · have hmem' := List.mem_toFinset.2 hmem
    have hlen := (h.inv.commit leader hmem').1
    have hlog : n'.log = (c.nodes leader).log ++ [⟨(c.nodes leader).currentTerm, command⟩] := by rw [hn']
    have hinv := h.inv.lead (e := ⟨(c.nodes leader).currentTerm, command⟩) (x := n'.mem) (y := n'.disk)
      hmem' hrole rfl (by rw [hn']; rfl) (h.saved hmem hkept)
    have hgood : Good (c.setNode leader n') _ := h.replace (b := True) (by rw [hn'] at hinv ⊢; exact hinv)
      (by rw [hn']; simp [hrole]) hkept (by rw [hn']) (by rw [hn']) (by rw [hn'])
      (by rw [hlog]; exact List.take_append_of_le_length hlen)
    refine ⟨_, ⟨hgood, append_later _, rfl, fun q => List.prefix_refl _⟩, fun index hr => ?_⟩
    obtain ⟨h1, h2⟩ := hok index hr
    refine ⟨⟨hgood, hmem, ?_, ?_, ?_⟩, h1, ?_, ?_⟩
    · rw [setNode_self, hn']; exact hrole
    · rw [setNode_self, hn']
    · rw [setNode_self, hlog]
    · rw [setNode_self]; exact h2
    · rw [setNode_self, hn']

/-- **`replicate`**: an acknowledged entry is durably committed. -/
theorem Good.replicate {command : Bytes} {r : Res ℕ} (h : Good c g)
    (hrun : (replicate leader command).run c = (r, c')) :
    ∃ g', Evolves c g c' g' ∧ ∀ i, r = .ok i → 0 < i ∧
      (∃ k, i ≤ k ∧ ((c.nodes leader).currentTerm, k) ∈ g'.durable) ∧
      (g'.ledger (c.nodes leader).currentTerm)[i - 1]? = some ⟨(c.nodes leader).currentTerm, command⟩ := by
  rw [RaftCluster.replicate, Act.run_bind_ok (Act.run_gets _ c)] at hrun
  by_cases hstop : leader ∈ c.stopped
  · rw [if_pos hstop] at hrun
    cases hrun
    exact ⟨g, Evolves.refl h, fun i hr => (nomatch hr)⟩
  rw [if_neg hstop] at hrun
  by_cases hmem : leader ∉ c.ids
  · rw [if_pos hmem] at hrun
    cases hrun
    exact ⟨g, Evolves.refl h, fun i hr => (nomatch hr)⟩
  rw [if_neg hmem] at hrun
  rcases Act.run_bind_cases hrun with ⟨index, c₁, happ, hrun⟩ | ⟨e, happ, rfl⟩
  · obtain ⟨g₁, hev₁, hlead⟩ := h.appendAsLeader (not_not.1 hmem) happ
    obtain ⟨hlead, hindex, hp, hcommit₁⟩ := hlead index rfl
    rcases Act.run_bind_cases hrun with ⟨k, c₂, hex, hrun⟩ | ⟨e, hex, rfl⟩
    · obtain ⟨g₂, hev₂, hk⟩ := hlead.replicateExisting hex
      obtain ⟨hk₂, hnew⟩ := hk k rfl
      rw [Act.run_bind_ok (Act.run_gets _ c₂), hk₂] at hrun
      split_ifs at hrun with hlt
      · cases hrun
        exact ⟨g₂, hev₁.trans hev₂, fun i hr => (nomatch hr)⟩
      · cases hrun
        refine ⟨g₂, hev₁.trans hev₂, fun i hr => ?_⟩
        cases hr
        have hlen := (h.inv.commit leader (List.mem_toFinset.2 (not_not.1 hmem))).1
        have hlen : (c.nodes leader).commitIndex ≤ (c.nodes leader).log.length := hlen
        refine ⟨by omega, ⟨k, not_lt.1 hlt, ?_⟩, ?_⟩
        · rcases hnew with hk | ⟨-, hdur⟩
          · omega
          · exact hdur (hlead.log ▸ hp)
        · obtain ⟨rest, hrest⟩ := (hev₂.later.elected _ _ hlead.ledger.1).2
          rw [← hrest, ← hlead.ledger.2, hindex]
          simp
    · obtain ⟨g₂, hev₂, -⟩ := hlead.replicateExisting hex
      exact ⟨g₂, hev₁.trans hev₂, fun i hr => (nomatch hr)⟩
  · obtain ⟨g₁, hev₁, -⟩ := h.appendAsLeader (not_not.1 hmem) happ
    exact ⟨g₁, hev₁, fun i hr => (nomatch hr)⟩

end Replicate

end RaftCluster

end Raft

end NutDb
