/-
  The cluster as a world of the protocol.

  A state of the cluster is good if its world satisfies the invariant of the
  protocol, the log file of every node holds a state, and every node has applied
  a committed prefix of its log.  A change of one node keeps a state good in
  three ways: it keeps the log, it takes over the log of a leader, or it appends
  to its own log as leader.
-/
import NutDb.Raft.NodeSpec
import NutDb.Raft.Cluster

namespace NutDb

open Lib Lib.Raft

namespace Raft

/-- The image of a node in memory. -/
def RaftNode.mem (n : RaftNode) : Replica U64 U64 Entry := n.state.replica

/-- The image of a node on disk. -/
def RaftNode.disk (n : RaftNode) : Replica U64 U64 Entry := (stored n.wal).replica

namespace RaftCluster

/-- The world of a cluster. -/
def world (c : RaftCluster) : World U64 U64 Entry where
  mem q := (c.nodes q).mem
  disk q := (c.nodes q).disk
  leads q := (c.nodes q).role = .leader
  commit q := (c.nodes q).commitIndex

/-- The cluster with one node replaced. -/
def setNode (c : RaftCluster) (q : U64) (n : RaftNode) : RaftCluster :=
  { c with nodes := Function.update c.nodes q n }

/-- The history of a cluster. -/
abbrev History := Ghost U64 U64 Entry

section SetNode
variable {c : RaftCluster} {q : U64} {n : RaftNode}

@[simp] theorem setNode_ids : (c.setNode q n).ids = c.ids := rfl

@[simp] theorem setNode_stopped : (c.setNode q n).stopped = c.stopped := rfl

@[simp] theorem setNode_blocked : (c.setNode q n).blocked = c.blocked := rfl

@[simp] theorem setNode_applied : (c.setNode q n).applied = c.applied := rfl

@[simp] theorem setNode_self : (c.setNode q n).nodes q = n := by simp [setNode]

theorem setNode_of_ne {p : U64} (h : p ≠ q) : (c.setNode q n).nodes p = c.nodes p := by
  simp [setNode, h]

theorem setNode_eq_self : c.setNode q (c.nodes q) = c := by simp [setNode]

theorem world_setNode :
    (c.setNode q n).world = c.world.set q n.mem n.disk (n.role = .leader) n.commitIndex := by
  have hupd : ∀ {β : Type} (f : RaftNode → β),
      (fun p => f (Function.update c.nodes q n p)) = Function.update (fun p => f (c.nodes p)) q (f n) := by
    intro β f
    funext p
    by_cases hp : p = q
    · rw [hp, Function.update_self, Function.update_self]
    · rw [Function.update_of_ne hp, Function.update_of_ne hp]
  simp only [world, setNode, World.set, hupd RaftNode.mem, hupd RaftNode.disk,
    hupd fun n => n.role = .leader, hupd RaftNode.commitIndex]

theorem run_onNode {α : Type} {x : Act RaftNode α} {r : Res α} {c' : RaftCluster}
    (h : (onNode q x).run c = (r, c')) : ∃ n', x.run (c.nodes q) = (r, n') ∧ c' = c.setNode q n' := by
  cases h
  exact ⟨_, rfl, rfl⟩

end SetNode

/-! ## Good states -/

/-- A node with a log file that holds a state, which has applied a committed prefix of its log. -/
structure NodeOk (c : RaftCluster) (q : U64) : Prop where
  id : (c.nodes q).id = q
  stores : ∃ s, Stores (c.nodes q).wal s
  le : (c.nodes q).lastApplied ≤ (c.nodes q).commitIndex
  applied : c.applied q = ((c.nodes q).log.take (c.nodes q).lastApplied).map Entry.command

/-- **The good states.** -/
structure Good (c : RaftCluster) (g : History) : Prop where
  nodup : c.ids.Nodup
  node : ∀ q ∈ c.ids, c.NodeOk q
  inv : Inv Entry.term c.ids.toFinset Persistable c.world g

section Good
variable {c : RaftCluster} {g : History} {q : U64} {n' : RaftNode}

/-- The log file of a node of a good state after a handler. -/
theorem Good.saved (h : Good c g) (hq : q ∈ c.ids) (hk : Kept (c.nodes q) n') :
    n'.disk = n'.mem ∨ (n'.disk = (c.nodes q).disk ∧ ¬ Persistable n'.log) := by
  rcases hk with hst | ⟨hwal, hstate | hp⟩
  · exact Or.inl (by rw [RaftNode.disk, hst.stored, RaftNode.mem])
  · have hdisk : n'.disk = (c.nodes q).disk := by rw [RaftNode.disk, hwal, RaftNode.disk]
    by_cases hp : Persistable n'.log
    · have hlog : n'.log = (c.nodes q).log := congrArg PersistentState.log hstate
      have hsaved := h.inv.saved q (List.mem_toFinset.2 hq) (show Persistable (c.nodes q).log from hlog ▸ hp)
      exact Or.inl (hdisk.trans (hsaved.trans (congrArg PersistentState.replica hstate.symm)))
    · exact Or.inr ⟨hdisk, hp⟩
  · exact Or.inr ⟨by rw [RaftNode.disk, hwal, RaftNode.disk], hp⟩

/-- A change of one node that keeps the invariant of the protocol, perhaps with another history, and
    the committed part of its log. -/
theorem Good.replace {g' : History} {b : Prop} (h : Good c g)
    (hinv : Inv Entry.term c.ids.toFinset Persistable (c.world.set q n'.mem n'.disk b n'.commitIndex) g')
    (hb : b ↔ n'.role = .leader) (hkept : Kept (c.nodes q) n') (hid : n'.id = (c.nodes q).id)
    (happ : n'.lastApplied = (c.nodes q).lastApplied) (hcommit : (c.nodes q).commitIndex ≤ n'.commitIndex)
    (hlog : n'.log.take (c.nodes q).commitIndex = (c.nodes q).log.take (c.nodes q).commitIndex) :
    Good (c.setNode q n') g' := by
  refine ⟨h.nodup, fun p hp => ?_, by rw [world_setNode, ← propext hb]; exact hinv⟩
  have hok := h.node p hp
  by_cases hpq : p = q
  · subst hpq
    obtain ⟨s, hs⟩ := hok.stores
    refine ⟨?_, ?_, ?_, ?_⟩
    · rw [setNode_self, hid, hok.id]
    · rw [setNode_self]; exact hkept.stores hs
    · rw [setNode_self, happ]; exact hok.le.trans hcommit
    · rw [setNode_self, setNode_applied, hok.applied, happ]
      have := congrArg (List.take (c.nodes p).lastApplied) hlog
      rw [List.take_take, List.take_take, Nat.min_eq_left hok.le] at this
      rw [this]
  · obtain ⟨h1, h2, h3, h4⟩ := hok
    rw [← setNode_of_ne (c := c) (n := n') hpq] at h1 h2 h3 h4
    exact ⟨h1, h2, h3, h4⟩

/-- **A handler that keeps the log.** -/
theorem Good.keepLog (h : Good c g) (hq : q ∈ c.ids) (hkept : Kept (c.nodes q) n')
    (hid : n'.id = (c.nodes q).id) (hlog : n'.log = (c.nodes q).log)
    (hcommit : n'.commitIndex = (c.nodes q).commitIndex) (happ : n'.lastApplied = (c.nodes q).lastApplied)
    (hterm : (c.nodes q).currentTerm < n'.currentTerm ∨ (n'.currentTerm = (c.nodes q).currentTerm ∧
      ((c.nodes q).votedFor = none ∨ n'.votedFor = (c.nodes q).votedFor)))
    (hvote : ∀ p, n'.votedFor = some p → p ≠ q → p ∈ c.ids ∧ n'.currentTerm ≤ (c.nodes p).disk.term)
    (hrole : n'.role = .leader → (c.nodes q).role = .leader ∧ n'.currentTerm = (c.nodes q).currentTerm) :
    Good (c.setNode q n') g := by
  have hq' : q ∈ c.ids.toFinset := List.mem_toFinset.2 hq
  have hf := fine_of_log_eq (x := n'.mem) (y := n'.disk) (b := n'.role = .leader) h.inv hq' hlog hterm
    (fun p hp hpq => (hvote p hp hpq).imp_left List.mem_toFinset.2) hrole (h.saved hq hkept)
  exact h.replace (h.inv.update hq' (by rw [hcommit]; exact hf)) Iff.rfl hkept hid happ hcommit.ge (by rw [hlog])

/-- **A handler that takes over the log of a leader.** -/
theorem Good.takeLog (h : Good c g) (hq : q ∈ c.ids) (hkept : Kept (c.nodes q) n')
    (hid : n'.id = (c.nodes q).id) (happ : n'.lastApplied = (c.nodes q).lastApplied)
    (he : (g.elected n'.currentTerm).isSome) (hlog : n'.log = g.ledger n'.currentTerm)
    (hterm : ((c.nodes q).currentTerm < n'.currentTerm ∧ n'.votedFor = none) ∨
      (n'.currentTerm = (c.nodes q).currentTerm ∧ n'.votedFor = (c.nodes q).votedFor))
    (hrole : n'.role ≠ .leader)
    (hcommit : n'.commitIndex = (c.nodes q).commitIndex ∨
      ((c.nodes q).commitIndex ≤ n'.commitIndex ∧ Covered g n'.commitIndex n'.mem)) :
    Good (c.setNode q n') g := by
  have hq' : q ∈ c.ids.toFinset := List.mem_toFinset.2 hq
  have hle : (c.world.mem q).term ≤ n'.currentTerm := by
    rcases hterm with ⟨hlt, -⟩ | ⟨heq, -⟩
    · exact hlt.le
    · exact heq.ge
  refine h.replace (h.inv.update hq'
    (fine_of_ledger h.inv hq' he hlog hterm hrole ?_ (h.saved hq hkept))) Iff.rfl hkept hid happ ?_ ?_
  · exact hcommit.imp_right And.right
  · rcases hcommit with heq | ⟨hle', -⟩
    · exact heq.ge
    · exact hle'
  · rw [hlog]
    exact h.inv.take_commit hq' he hle

/-- The nodes of a good state whose logs can be written are on disk. -/
theorem Good.disk_eq (h : Good c g) (hq : q ∈ c.ids) (hp : Persistable (c.nodes q).log) :
    (c.nodes q).disk = (c.nodes q).mem :=
  h.inv.saved q (List.mem_toFinset.2 hq) hp

/-- **Stepping down** for a term. -/
theorem Good.observeTerm {term : U64} {r : Res Unit} {c' : RaftCluster} (h : Good c g) (hq : q ∈ c.ids)
    (hrun : (onNode q (RaftNode.observeTerm term)).run c = (r, c')) :
    ∃ n', c' = c.setNode q n' ∧ Good c' g := by
  obtain ⟨n', hnode, rfl⟩ := run_onNode hrun
  obtain ⟨s, hs⟩ := (h.node q hq).stores
  refine ⟨n', rfl, ?_⟩
  rcases RaftNode.observeTerm_spec hs hnode with rfl | ⟨w, hlt, rfl, hkept⟩
  · rw [setNode_eq_self]
    exact h
  · exact h.keepLog hq hkept rfl rfl rfl rfl (Or.inl hlt) (fun p hp => (nomatch hp))
      fun hrole => (nomatch hrole)

end Good

/-- How the cluster goes on: the state stays good, the history goes on, and what is applied stays
    so. -/
structure Evolves (c : RaftCluster) (g : History) (c' : RaftCluster) (g' : History) : Prop where
  good : Good c' g'
  later : g.Later g'
  ids : c'.ids = c.ids
  applied : ∀ q, c.applied q <+: c'.applied q

theorem Evolves.refl {c : RaftCluster} {g : History} (h : Good c g) : Evolves c g c g :=
  ⟨h, Ghost.Later.refl g, rfl, fun _ => List.prefix_refl _⟩

theorem Evolves.trans {c c' c'' : RaftCluster} {g g' g'' : History} (h : Evolves c g c' g')
    (h' : Evolves c' g' c'' g'') : Evolves c g c'' g'' :=
  ⟨h'.good, h.later.trans h'.later, h'.ids.trans h.ids, fun q => (h.applied q).trans (h'.applied q)⟩

/-- Only nodes have changed. -/
theorem Good.evolves {c c' : RaftCluster} {g : History} (h : Good c' g) (hids : c'.ids = c.ids)
    (happ : c'.applied = c.applied) : Evolves c g c' g :=
  ⟨h, Ghost.Later.refl g, hids, fun q => by rw [happ]⟩

/-- The part of a cluster that elections and replication do not change. -/
def SameNet (c c' : RaftCluster) : Prop :=
  c'.ids = c.ids ∧ c'.stopped = c.stopped ∧ c'.blocked = c.blocked ∧ c'.applied = c.applied

theorem SameNet.trans {c c' c'' : RaftCluster} (h : SameNet c c') (h' : SameNet c' c'') : SameNet c c'' :=
  ⟨h'.1.trans h.1, h'.2.1.trans h.2.1, h'.2.2.1.trans h.2.2.1, h'.2.2.2.trans h.2.2.2⟩

theorem sameNet_setNode (c : RaftCluster) (q : U64) (n : RaftNode) : SameNet c (c.setNode q n) :=
  ⟨rfl, rfl, rfl, rfl⟩

end RaftCluster

end Raft

end NutDb
