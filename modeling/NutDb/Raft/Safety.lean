/-
  Safety of the Raft cluster.

  A run is any sequence of calls on a cluster, and of openings of the cluster
  from its files.  A call may fail, and then it has done part of its work.
-/
import NutDb.Raft.Election
import NutDb.Raft.Replication
import NutDb.Lib.Trace

namespace NutDb

open Lib Lib.Raft

namespace Raft

namespace RaftCluster

/-! ## Runs -/

/-- The calls on a cluster. -/
inductive Call where
  | elect (candidate : U64)
  | electByTimeout
  | replicate (leader : U64) (command : Bytes)
  | synchronize (leader : U64)
  | partition (a b : U64)
  | isolate (node : U64)
  | healAll
  | stop (node : U64)
  | start (node : U64)
  deriving DecidableEq, Repr

/-- What a call returns. -/
inductive Answer where
  | unit
  | won (won : Bool)
  | winner (id : Option U64)
  | index (index : ℕ)
  deriving DecidableEq, Repr

/-- What a call does. -/
def Call.run : Call → Act RaftCluster Answer
  | .elect candidate => do
    let won ← RaftCluster.elect candidate
    return .won won
  | .electByTimeout => do
    let id ← RaftCluster.electByTimeout
    return .winner id
  | .replicate leader command => do
    let index ← RaftCluster.replicate leader command
    return .index index
  | .synchronize leader => do
    RaftCluster.synchronize leader
    return .unit
  | .partition a b => do
    Act.modify (RaftCluster.partition a b)
    return .unit
  | .isolate node => do
    Act.modify (RaftCluster.isolate node)
    return .unit
  | .healAll => do
    Act.modify RaftCluster.healAll
    return .unit
  | .stop node => do
    Act.modify (RaftCluster.stop node)
    return .unit
  | .start node => do
    Act.modify (RaftCluster.start node)
    return .unit

/-- `synchronize` is for leaders. -/
def Call.Allowed (c : RaftCluster) : Call → Prop
  | .synchronize leader => leader ∈ c.ids ∧ (c.nodes leader).role = .leader
  | _ => True

/-- What happens in a step. -/
inductive Event where
  | call (call : Call) (result : Res Answer)
  | reopen (seed : U64)

/-- The steps of a cluster. -/
inductive Step : RaftCluster → Event → RaftCluster → Prop
  | call {c c' : RaftCluster} {call : Call} {result : Res Answer} : call.Allowed c →
      call.run.run c = (result, c') → Step c (.call call result) c'
  | reopen {c c' : RaftCluster} {seed : U64} : c.reopen seed = .ok c' → Step c (.reopen seed) c'

/-! ## Opening -/

/-- A cluster that was opened from log files. -/
structure Opened (files : U64 → Option Bytes) (c : RaftCluster) : Prop where
  nodup : c.ids.Nodup
  node : ∀ q ∈ c.ids, ∃ s timeout, Stores ((files q).getD []) s ∧ c.nodes q =
    { id := q, wal := (files q).getD [], currentTerm := s.currentTerm, votedFor := s.votedFor, log := s.log,
      electionTimeoutMs := timeout }
  applied : c.applied = fun _ => []

section Open
variable {files : U64 → Option Bytes} {seed : U64} {c : RaftCluster}

theorem Opened.openNext (seed : U64) {id : U64} (h : Opened files c) (hs : ∃ s, Stores ((files id).getD []) s) :
    ∃ c', openNext files seed c id = .ok c' ∧ Opened files c' ∧ ∀ q, q ∈ c'.ids ↔ q = id ∨ q ∈ c.ids := by
  obtain ⟨s, hs⟩ := hs
  have hfile : (if id ∈ c.ids then some (c.nodes id).wal else files id).getD [] = (files id).getD [] := by
    split_ifs with hid
    · obtain ⟨s', timeout, -, hn⟩ := h.node id hid
      rw [hn]; rfl
    · rfl
  obtain ⟨timeout, hopen⟩ := RaftNode.openNode_stores id seed (hfile.symm ▸ hs)
  rw [hfile] at hopen
  have hids : ∀ n q, q ∈ (c.insertNode id n).ids ↔ q = id ∨ q ∈ c.ids := by
    intro n q
    simp only [insertNode]
    split_ifs with hid
    · exact ⟨Or.inr, fun h => h.elim (fun h => h ▸ hid) fun h => h⟩
    · rw [(List.perm_orderedInsert _ id c.ids).mem_iff, List.mem_cons]
  refine ⟨c.insertNode id _, by rw [RaftCluster.openNext, hopen]; rfl, ⟨?_, fun q hq => ?_, h.applied⟩, hids _⟩
  · simp only [insertNode]
    split_ifs with hid
    · exact h.nodup
    · exact (List.perm_orderedInsert _ id c.ids).nodup_iff.2 (List.nodup_cons.2 ⟨hid, h.nodup⟩)
  · by_cases hqid : q = id
    · subst hqid
      exact ⟨s, timeout, hs, by simp [insertNode]⟩
    · obtain ⟨s', timeout', hs', hn⟩ := h.node q (((hids _ q).1 hq).resolve_left hqid)
      exact ⟨s', timeout', hs', by simp only [insertNode, Function.update_of_ne hqid]; exact hn⟩

theorem openCluster_spec (files : U64 → Option Bytes) (seed : U64) (ids : List U64)
    (hs : ∀ q ∈ ids, ∃ s, Stores ((files q).getD []) s) :
    ∃ c', openCluster ids files seed = .ok c' ∧ Opened files c' ∧ ∀ q, q ∈ c'.ids ↔ q ∈ ids := by
  have hloop : ∀ (ids : List U64) {c : RaftCluster}, Opened files c →
      (∀ q ∈ ids, ∃ s, Stores ((files q).getD []) s) →
      ∃ c', ids.foldlM (RaftCluster.openNext files seed) c = .ok c' ∧ Opened files c' ∧
        ∀ q, q ∈ c'.ids ↔ q ∈ c.ids ∨ q ∈ ids := by
    intro ids
    induction ids with
    | nil => exact fun h _ => ⟨_, rfl, h, by simp⟩
    | cons id ids ih =>
      intro c h hs
      obtain ⟨c₁, h1, h2, h3⟩ := h.openNext seed (hs id List.mem_cons_self)
      obtain ⟨c₂, h4, h5, h6⟩ := ih h2 fun q hq => hs q (List.mem_cons_of_mem _ hq)
      refine ⟨c₂, by rw [List.foldlM_cons, h1]; exact h4, h5, fun q => ?_⟩
      rw [h6, h3, List.mem_cons, or_assoc, or_left_comm]
  obtain ⟨c', h1, h2, h3⟩ := hloop ids (c := empty) ⟨List.nodup_nil, by simp [empty], rfl⟩ hs
  exact ⟨c', h1, h2, fun q => by simpa [empty] using h3 q⟩

end Open

/-! ## Good states in runs -/

section Good
variable {c c' : RaftCluster} {g : History}

theorem Opened.node_eq {files : U64 → Option Bytes} (h : Opened files c) {q : U64} (hq : q ∈ c.ids) :
    (c.nodes q).mem = (stored ((files q).getD [])).replica ∧
      (c.nodes q).disk = (stored ((files q).getD [])).replica ∧ (c.nodes q).role ≠ .leader ∧
      (c.nodes q).commitIndex = 0 := by
  obtain ⟨s, timeout, hs, hn⟩ := h.node q hq
  rw [hn, hs.stored]
  exact ⟨rfl, congrArg PersistentState.replica hs.stored, fun h => (nomatch h), rfl⟩

theorem Opened.nodeOk {files : U64 → Option Bytes} (h : Opened files c) {q : U64} (hq : q ∈ c.ids) :
    c.NodeOk q := by
  obtain ⟨s, timeout, hs, hn⟩ := h.node q hq
  refine ⟨by rw [hn], ⟨s, by rw [hn]; exact hs⟩, by rw [hn], ?_⟩
  rw [hn, h.applied]
  rfl

/-- **A cluster without files** opens in a good state. -/
theorem good_open {ids : List U64} {seed : U64} (h : openCluster ids (fun _ => none) seed = .ok c) :
    Good c ⟨fun _ => none, fun _ => [], ∅, ∅⟩ := by
  obtain ⟨c', h', hopened, -⟩ := openCluster_spec (fun _ => none) seed ids
    fun q _ => ⟨_, stores_nil⟩
  rw [h] at h'
  cases h'
  have hnil : (stored []).replica = ⟨0, none, []⟩ := by rw [stores_nil.stored]; rfl
  have hnode := fun q (hq : q ∈ c.ids.toFinset) => hopened.node_eq (List.mem_toFinset.1 hq)
  exact ⟨hopened.nodup, fun q hq => hopened.nodeOk hq,
    inv_start 0 (fun q hq => (hnode q hq).1.trans hnil) (fun q hq => (hnode q hq).2.1.trans hnil)
      (fun q hq => (hnode q hq).2.2.1) fun q hq => (hnode q hq).2.2.2⟩

/-- **Opening the cluster again** keeps what is durable. -/
theorem Good.reopen {seed : U64} (h : Good c g) (hc : c.reopen seed = .ok c') :
    Good c' g.restart ∧ g.Later g.restart := by
  have hfiles : ∀ q ∈ c.ids, (c.files q).getD [] = (c.nodes q).wal := fun q hq => by
    rw [files, if_pos hq]; rfl
  obtain ⟨c₁, h₁, hopened, hids⟩ := openCluster_spec c.files seed c.ids
    fun q hq => by rw [hfiles q hq]; exact (h.node q hq).stores
  rw [RaftCluster.reopen, h₁] at hc
  cases hc
  have hset : c'.ids.toFinset = c.ids.toFinset := by
    ext q
    rw [List.mem_toFinset, List.mem_toFinset, hids]
  have hnode : ∀ q ∈ c.ids.toFinset, (c'.nodes q).mem = (c.nodes q).disk ∧
      (c'.nodes q).disk = (c.nodes q).disk ∧ (c'.nodes q).role ≠ .leader ∧ (c'.nodes q).commitIndex = 0 := by
    intro q hq
    have hq := List.mem_toFinset.1 hq
    have := hopened.node_eq ((hids q).2 hq)
    rwa [hfiles q hq] at this
  obtain ⟨hinv, hlater⟩ := h.inv.restart c'.world (fun q hq => (hnode q hq).1)
    (fun q hq => (hnode q hq).2.1) (fun q hq => (hnode q hq).2.2.1) fun q hq => (hnode q hq).2.2.2
  exact ⟨⟨hopened.nodup, fun q hq => hopened.nodeOk hq, by rw [hset]; exact hinv⟩, hlater⟩

/-- A change of the network. -/
theorem Good.network (h : Good c g) (hids : c'.ids = c.ids) (hnodes : c'.nodes = c.nodes)
    (happ : c'.applied = c.applied) : Evolves c g c' g := by
  refine Good.evolves ⟨hids ▸ h.nodup, fun q hq => ?_, ?_⟩ hids happ
  · obtain ⟨h1, h2, h3, h4⟩ := h.node q (hids ▸ hq)
    exact ⟨by rw [hnodes]; exact h1, by rw [hnodes]; exact h2, by rw [hnodes]; exact h3,
      by rw [happ, hnodes]; exact h4⟩
  · have hworld : c'.world = c.world := by simp only [world, hnodes]
    rw [hids, hworld]
    exact h.inv

theorem isolate_spec (node : U64) (c : RaftCluster) : (c.isolate node).ids = c.ids ∧
    (c.isolate node).nodes = c.nodes ∧ (c.isolate node).applied = c.applied := by
  have hloop : ∀ (peers : List U64) (c : RaftCluster),
      (peers.foldl (fun c peer => if peer ≠ node then c.partition node peer else c) c).ids = c.ids ∧
      (peers.foldl (fun c peer => if peer ≠ node then c.partition node peer else c) c).nodes = c.nodes ∧
      (peers.foldl (fun c peer => if peer ≠ node then c.partition node peer else c) c).applied = c.applied := by
    intro peers
    induction peers with
    | nil => exact fun c => ⟨rfl, rfl, rfl⟩
    | cons peer peers ih =>
      intro c
      rw [List.foldl_cons]
      split_ifs
      · exact ih _
      · exact ih _
  exact hloop c.ids c

/-- **A call** keeps the state good. -/
theorem Good.call {call : Call} {result : Res Answer} (h : Good c g) (hallowed : call.Allowed c)
    (hrun : call.run.run c = (result, c')) : ∃ g', Evolves c g c' g' := by
  cases call with
  | elect candidate =>
    rcases Act.run_bind_cases hrun with ⟨won, c₁, hx, hrun⟩ | ⟨e, hx, rfl⟩
    · cases hrun
      exact h.elect hx
    · exact h.elect hx
  | electByTimeout =>
    rcases Act.run_bind_cases hrun with ⟨won, c₁, hx, hrun⟩ | ⟨e, hx, rfl⟩
    · cases hrun
      exact h.electByTimeout hx
    · exact h.electByTimeout hx
  | replicate leader command =>
    rcases Act.run_bind_cases hrun with ⟨index, c₁, hx, hrun⟩ | ⟨e, hx, rfl⟩
    · cases hrun
      obtain ⟨g', hev, -⟩ := h.replicate hx
      exact ⟨g', hev⟩
    · obtain ⟨g', hev, -⟩ := h.replicate hx
      exact ⟨g', hev⟩
  | synchronize leader =>
    have hlead : Leading c g leader _ _ := ⟨h, hallowed.1, hallowed.2, rfl, rfl⟩
    rcases Act.run_bind_cases hrun with ⟨u, c₁, hx, hrun⟩ | ⟨e, hx, rfl⟩
    · cases hrun
      exact hlead.synchronize hx
    · exact hlead.synchronize hx
  | partition a b => cases hrun; exact ⟨g, h.network rfl rfl rfl⟩
  | isolate node =>
    cases hrun
    obtain ⟨h1, h2, h3⟩ := isolate_spec node c
    exact ⟨g, h.network h1 h2 h3⟩
  | healAll => cases hrun; exact ⟨g, h.network rfl rfl rfl⟩
  | stop node => cases hrun; exact ⟨g, h.network rfl rfl rfl⟩
  | start node => cases hrun; exact ⟨g, h.network rfl rfl rfl⟩

/-- **A step** keeps the state good, and the history goes on. -/
theorem Good.step {e : Event} (h : Good c g) (hstep : Step c e c') : ∃ g', Good c' g' ∧ g.Later g' := by
  cases hstep with
  | call hallowed hrun =>
    obtain ⟨g', hev⟩ := h.call hallowed hrun
    exact ⟨g', hev.good, hev.later⟩
  | reopen hc => exact ⟨g.restart, h.reopen hc⟩

/-- **A run** keeps the state good, and the history goes on. -/
theorem Good.trace {steps : List (RaftCluster × Event)} (h : Good c g) (htrace : Trace Step c steps c') :
    ∃ g', Good c' g' ∧ g.Later g' := by
  refine htrace.inv (I := fun c => ∃ g', Good c g' ∧ g.Later g') ?_ ⟨g, h, Ghost.Later.refl g⟩
  rintro s e s' ⟨g₁, hg₁, hl₁⟩ hstep
  obtain ⟨g₂, hg₂, hl₂⟩ := hg₁.step hstep
  exact ⟨g₂, hg₂, hl₁.trans hl₂⟩

end Good

/-! ## Safety -/

/-- A call, as opposed to opening the cluster again. -/
def Event.IsCall : Event → Prop
  | .call .. => True
  | .reopen _ => False

/-- The state after a call. -/
def after (c : RaftCluster) (call : Call) : RaftCluster := (call.run.run c).2

theorem step_after {c : RaftCluster} (call : Call) {r : Res Answer} (hallowed : call.Allowed c)
    (h : (call.run.run c).1 = r) : Step c (.call call r) (c.after call) :=
  .call hallowed (Prod.ext h rfl)

/-- Three nodes, of which the first is elected and replicates a command, before the second is
    elected. -/
def threeNodes : RaftCluster :=
  match openCluster [1, 2, 3] (fun _ => none) 0 with
  | .ok c => c
  | .error _ => empty

def firstElected : RaftCluster := threeNodes.after (.elect 1)

def firstReplicated : RaftCluster := firstElected.after (.replicate 1 [7])

def secondElected : RaftCluster := firstReplicated.after (.elect 2)

theorem open_threeNodes : openCluster [1, 2, 3] (fun _ => none) 0 = .ok threeNodes := rfl

theorem step_firstElected : Step threeNodes (.call (.elect 1) (.ok (.won true))) firstElected :=
  step_after (.elect 1) trivial (by decide +kernel)

theorem step_firstReplicated :
    Step firstElected (.call (.replicate 1 [7]) (.ok (.index 1))) firstReplicated :=
  step_after (.replicate 1 [7]) trivial (by decide +kernel)

theorem step_secondElected : Step firstReplicated (.call (.elect 2) (.ok (.won true))) secondElected :=
  step_after (.elect 2) trivial (by decide +kernel)

section Safety
variable {ids : List U64} {seed : U64} {c₀ c₁ c₂ c₃ : RaftCluster} {steps₁ steps₂ : List (RaftCluster × Event)}

/-- **Election safety**: over the whole history, at most one node leads in a term. -/
theorem election_safety (hopen : openCluster ids (fun _ => none) seed = .ok c₀)
    (h₁ : Trace Step c₀ steps₁ c₁) (h₂ : Trace Step c₁ steps₂ c₂) {n m : U64} (hn : n ∈ c₁.ids)
    (hm : m ∈ c₂.ids) (hln : (c₁.nodes n).role = .leader) (hlm : (c₂.nodes m).role = .leader)
    (hterm : (c₁.nodes n).currentTerm = (c₂.nodes m).currentTerm) : n = m := by
  obtain ⟨g₁, hg₁, -⟩ := (good_open hopen).trace h₁
  obtain ⟨g₂, hg₂, hlater⟩ := hg₁.trace h₂
  obtain ⟨he₁, -⟩ := hg₁.inv.leads n (List.mem_toFinset.2 hn) hln
  obtain ⟨he₂, -⟩ := hg₂.inv.leads m (List.mem_toFinset.2 hm) hlm
  have he : g₂.elected (c₁.nodes n).currentTerm = some n := (hlater.elected _ _ he₁).1
  have he₂ : g₂.elected (c₂.nodes m).currentTerm = some m := he₂
  rw [hterm, he₂] at he
  cases he
  rfl

theorem election_safety_first : (firstElected.nodes 1).role = .leader ∧
    (firstElected.nodes 1).currentTerm = (firstReplicated.nodes 1).currentTerm ∧ (1 : U64) = 1 :=
  ⟨by decide +kernel, by decide +kernel,
    election_safety open_threeNodes ((Trace.refl _).step step_firstElected)
      ((Trace.refl _).step step_firstReplicated) (by decide +kernel) (by decide +kernel)
      (by decide +kernel) (by decide +kernel) (by decide +kernel)⟩

/-- **Log matching**: logs with an entry of the same term at an index are the same up to it. -/
theorem log_matching (hopen : openCluster ids (fun _ => none) seed = .ok c₀)
    (h₁ : Trace Step c₀ steps₁ c₁) {n m : U64} (hn : n ∈ c₁.ids) (hm : m ∈ c₁.ids) {i : ℕ} {a b : Entry}
    (ha : (c₁.nodes n).log[i]? = some a) (hb : (c₁.nodes m).log[i]? = some b) (hterm : a.term = b.term) :
    ∀ j ≤ i, (c₁.nodes n).log[j]? = (c₁.nodes m).log[j]? := by
  intro j hj
  obtain ⟨g₁, hg₁, -⟩ := (good_open hopen).trace h₁
  have htake : (c₁.nodes n).log.take (i + 1) = (c₁.nodes m).log.take (i + 1) :=
    hg₁.inv.matching (List.mem_toFinset.2 hn) (List.mem_toFinset.2 hm) ha hb hterm
  have := congrArg (·[j]?) htake
  simpa [List.getElem?_take, Nat.lt_succ_of_le hj] using this

theorem log_matching_replicated : (firstReplicated.nodes 1).log[0]? = some ⟨1, [7]⟩ ∧
    ∀ j ≤ 0, (firstReplicated.nodes 1).log[j]? = (firstReplicated.nodes 2).log[j]? :=
  ⟨by decide +kernel,
    log_matching open_threeNodes (((Trace.refl _).step step_firstElected).step step_firstReplicated)
      (n := 1) (m := 2) (a := ⟨1, [7]⟩) (b := ⟨1, [7]⟩) (by decide +kernel) (by decide +kernel)
      (by decide +kernel) (by decide +kernel) rfl⟩

/-- **Leader completeness**: an entry that `replicate` has acknowledged in some term stays in the
    logs of a majority, and of every leader from this term on. -/
theorem leader_completeness (hopen : openCluster ids (fun _ => none) seed = .ok c₀)
    (h₁ : Trace Step c₀ steps₁ c₁) {leader : U64} {command : Bytes} {i : ℕ}
    (hreplicate : Step c₁ (.call (.replicate leader command) (.ok (.index i))) c₂)
    (h₂ : Trace Step c₂ steps₂ c₃) :
    0 < i ∧
      Majority c₃.ids.toFinset (fun q => (c₃.nodes q).log[i - 1]? =
        some ⟨(c₁.nodes leader).currentTerm, command⟩) ∧
      ∀ q ∈ c₃.ids, (c₃.nodes q).role = .leader → (c₁.nodes leader).currentTerm ≤ (c₃.nodes q).currentTerm →
        (c₃.nodes q).log[i - 1]? = some ⟨(c₁.nodes leader).currentTerm, command⟩ := by
  obtain ⟨g₁, hg₁, -⟩ := (good_open hopen).trace h₁
  obtain ⟨g₂, hev, hpos, ⟨k, hik, hdur⟩, hentry⟩ : ∃ g₂, Evolves c₁ g₁ c₂ g₂ ∧ 0 < i ∧
      (∃ k, i ≤ k ∧ ((c₁.nodes leader).currentTerm, k) ∈ g₂.durable) ∧
      (g₂.ledger (c₁.nodes leader).currentTerm)[i - 1]? =
        some ⟨(c₁.nodes leader).currentTerm, command⟩ := by
    cases hreplicate with
    | call _ hrun =>
      obtain ⟨index, c', hx, hrun⟩ := Act.run_bind_eq_ok.1 hrun
      cases hrun
      obtain ⟨g₂, hev, hi⟩ := hg₁.replicate hx
      exact ⟨g₂, hev, hi i rfl⟩
  obtain ⟨g₃, hg₃, hlater⟩ := hev.good.trace h₂
  obtain ⟨hcom, -⟩ := hg₃.inv.durable _ _ (hlater.durable hdur)
  have hcm := hg₃.inv.committed _ _ hcom
  have hgrown : g₂.ledger (c₁.nodes leader).currentTerm <+: g₃.ledger (c₁.nodes leader).currentTerm := by
    obtain ⟨hcom₂, -⟩ := hev.good.inv.durable _ _ hdur
    exact (hlater.isSome (hev.good.inv.committed _ _ hcom₂).elected).2
  -- whoever has the committed prefix has the entry
  have hhas : ∀ {log : List Entry},
      log.take k = (g₃.ledger (c₁.nodes leader).currentTerm).take k →
      log[i - 1]? = some ⟨(c₁.nodes leader).currentTerm, command⟩ := by
    intro log htake
    have hlt : i - 1 < k := by omega
    have hget := congrArg (·[i - 1]?) htake
    simp only [List.getElem?_take, hlt, if_true] at hget
    obtain ⟨rest, hrest⟩ := hgrown
    rw [hget, ← hrest, List.getElem?_append_left (List.getElem?_eq_some_iff.1 hentry).1, hentry]
  refine ⟨hpos, hcm.held.mono fun q _ hq => hhas hq.2, fun q hq hl hle => hhas ?_⟩
  exact hg₃.inv.complete (List.mem_toFinset.2 hq) hl hcom hle

theorem leader_completeness_second : (secondElected.nodes 2).role = .leader ∧
    Majority secondElected.ids.toFinset (fun q => (secondElected.nodes q).log[0]? = some ⟨1, [7]⟩) ∧
    (secondElected.nodes 2).log[0]? = some ⟨1, [7]⟩ := by
  have hterm : (firstElected.nodes 1).currentTerm = 1 := by decide +kernel
  obtain ⟨-, hmajority, hleader⟩ := leader_completeness open_threeNodes
    ((Trace.refl _).step step_firstElected) step_firstReplicated ((Trace.refl _).step step_secondElected)
  rw [hterm] at hmajority hleader
  exact ⟨by decide +kernel, hmajority, hleader 2 (by decide +kernel) (by decide +kernel) (by decide +kernel)⟩

/-- Calls only append to what is applied. -/
theorem Good.applied_grows {c c' : RaftCluster} {g : History} {steps : List (RaftCluster × Event)}
    (h : Good c g) (htrace : Trace Step c steps c') (hcalls : ∀ x ∈ steps, x.2.IsCall) (q : U64) :
    c.applied q <+: c'.applied q := by
  induction htrace with
  | refl => exact List.prefix_refl _
  | step htrace hstep ih =>
    have hle := ih fun x hx => hcalls x (List.mem_cons_of_mem _ hx)
    obtain ⟨g₁, hg₁, -⟩ := h.trace htrace
    cases hstep with
    | call hallowed hrun =>
      obtain ⟨g₂, hev⟩ := hg₁.call hallowed hrun
      exact hle.trans (hev.applied q)
    | reopen _ => exact (hcalls _ List.mem_cons_self).elim

/-- **State machine safety**: every node has applied the commands of a committed prefix of its log,
    in order and once, calls only append to them, and no two nodes disagree. -/
theorem applied_safety (hopen : openCluster ids (fun _ => none) seed = .ok c₀)
    (h₁ : Trace Step c₀ steps₁ c₁) :
    (∀ q ∈ c₁.ids, (c₁.nodes q).lastApplied ≤ (c₁.nodes q).commitIndex ∧
      (c₁.nodes q).commitIndex ≤ (c₁.nodes q).log.length ∧
      c₁.applied q = ((c₁.nodes q).log.take (c₁.nodes q).lastApplied).map Entry.command) ∧
    (∀ c₂ steps₂, Trace Step c₁ steps₂ c₂ → (∀ x ∈ steps₂, x.2.IsCall) →
      ∀ q ∈ c₁.ids, c₁.applied q <+: c₂.applied q) ∧
    ∀ p ∈ c₁.ids, ∀ q ∈ c₁.ids, c₁.applied p <+: c₁.applied q ∨ c₁.applied q <+: c₁.applied p := by
  obtain ⟨g₁, hg₁, -⟩ := (good_open hopen).trace h₁
  -- of two nodes, the one that has applied less has applied a prefix
  have hle : ∀ p ∈ c₁.ids, ∀ q ∈ c₁.ids, (c₁.nodes p).lastApplied ≤ (c₁.nodes q).lastApplied →
      c₁.applied p <+: c₁.applied q := by
    intro p hp q hq hpq
    have hpok := hg₁.node p hp
    have hqok := hg₁.node q hq
    have htake : (c₁.nodes p).log.take (c₁.nodes p).lastApplied =
        (c₁.nodes q).log.take (c₁.nodes p).lastApplied :=
      hg₁.inv.commit_agree (List.mem_toFinset.2 hp) (List.mem_toFinset.2 hq) hpok.le hqok.le hpq
    rw [hpok.applied, hqok.applied, htake]
    exact (List.take_prefix_take_left hpq).map Entry.command
  refine ⟨fun q hq => ?_, fun c₂ steps₂ h₂ hcalls q _ => hg₁.applied_grows h₂ hcalls q, fun p hp q hq => ?_⟩
  · have hok := hg₁.node q hq
    exact ⟨hok.le, (hg₁.inv.commit q (List.mem_toFinset.2 hq)).1, hok.applied⟩
  · rcases le_total (c₁.nodes p).lastApplied (c₁.nodes q).lastApplied with h | h
    · exact Or.inl (hle p hp q hq h)
    · exact Or.inr (hle q hq p hp h)

theorem applied_safety_replicated : firstReplicated.applied 1 = [[7]] ∧
    ∀ p ∈ firstReplicated.ids, ∀ q ∈ firstReplicated.ids,
      firstReplicated.applied p <+: firstReplicated.applied q ∨
        firstReplicated.applied q <+: firstReplicated.applied p :=
  ⟨by decide +kernel, (applied_safety open_threeNodes
    (((Trace.refl _).step step_firstElected).step step_firstReplicated)).2.2⟩

end Safety

end RaftCluster

end Raft

end NutDb
