/-
  The quorum of an operation (`client_read` and `client_write` of `src/server.rs`).

  Both functions refuse an operation if too few peers are alive.  They compare with
  half of the peers, rounded down, and not with half of the nodes, as the counts of
  staged and of committed records do; so they go on with exactly half of an even
  number of nodes (`quorum_iff`), and then two halves may serve at once.
-/
import NutDb.Lib.Quorum
import NutDb.Server.Read
import Mathlib.Data.Finset.Max
import Mathlib.Data.Finset.Sort
import Mathlib.Data.Nat.Digits.Defs

namespace NutDb.Server

open Lib

/-- The strict majority that the counts of `client_write` ask for. -/
def StrictMajority (s : Server) (count : ℕ) : Prop := count * 2 > s.peers.length + 1

/-- A leader goes on with a read exactly if it and its peers alive are a majority. -/
def ReadQuorum (s : Server) (net : Network) (key : String) : Prop :=
  s.leader (s.alivePeers net) = s.id →
    ((s.clientRead net key).2 ≠ .ok "RETRY no-quorum" ↔ s.StrictMajority ((s.alivePeers net).length + 1))

/-- A leader goes on with a write exactly if it and its peers alive are a majority. -/
def WriteQuorum (s : Server) (ask : Ask) (key value : String) (tombstone : Bool) : Prop :=
  s.leader (s.answering ask) = s.id →
    ((s.clientWrite ask key value tombstone).2 ≠ .ok "RETRY no-quorum" ↔
      s.StrictMajority ((s.answering ask).length + 1))

/-- A leader and its peers alive are exactly half of the nodes. -/
def Tied (s : Server) (alive : List U64) : Prop :=
  s.leader alive = s.id ∧ (alive.length + 1) * 2 = s.peers.length + 1

/-- A server whose peers are the other nodes. -/
structure Among (ids : Finset U64) (s : Server) : Prop where
  id : s.id ∈ ids
  nodup : s.peers.Nodup
  peers : s.peers.toFinset = ids.erase s.id

/-- The nodes that serve an operation: a leader that goes on with it, and its peers alive. -/
inductive Serving (ids : Finset U64) : Finset U64 → Prop
  | read {s net key} : Among ids s → s.leader (s.alivePeers net) = s.id →
      (s.clientRead net key).2 ≠ .ok "RETRY no-quorum" → Serving ids (insert s.id (s.alivePeers net).toFinset)
  | write {s ask key value tombstone} : Among ids s → s.leader (s.answering ask) = s.id →
      (s.clientWrite ask key value tombstone).2 ≠ .ok "RETRY no-quorum" →
      Serving ids (insert s.id (s.answering ask).toFinset)

section Check
variable {s : Server} {net : Network} {ask : Ask} {key value : String} {tombstone : Bool} {alive : List U64}

/-- The check of the source and a strict majority. -/
theorem check_iff (s : Server) (count : ℕ) : (¬ count ≤ s.peers.length / 2 ↔ s.StrictMajority count) ↔
    count * 2 ≠ s.peers.length + 1 := by
  unfold StrictMajority
  omega

theorem append_ne {start line : String} (h : stripPrefix start line = none) (rest : String) :
    start ++ rest ≠ line := by
  rintro rfl
  rw [stripPrefix_append] at h
  cases h

theorem readLine_ne (record : Option ReplicaValue) : readLine record ≠ "RETRY no-quorum" := by
  cases record with
  | none => decide
  | some record =>
    rw [readLine]
    split_ifs
    · exact append_ne (by decide) _
    · decide

/-- A leader refuses a read at the check only. -/
theorem clientRead_refused (hleader : s.leader (s.alivePeers net) = s.id) :
    (s.clientRead net key).2 = .ok "RETRY no-quorum" ↔ (s.alivePeers net).length + 1 ≤ s.peers.length / 2 := by
  simp only [clientRead, hleader, ne_eq, not_true_eq_false, if_false]
  split_ifs with hquorum
  · simp only [hquorum]
  · refine iff_of_false ?_ hquorum
    rcases catchUp net (s.alivePeers net) s.store with ⟨m, e | u⟩
    · exact fun h => (nomatch h)
    · dsimp only
      cases readRecord m key with
      | error e => exact fun h => (nomatch h)
      | ok record => exact fun h => readLine_ne record (Except.ok.inj h)

/-- A leader refuses a write at the check only. -/
theorem clientWrite_refused (hleader : s.leader (s.answering ask) = s.id) :
    (s.clientWrite ask key value tombstone).2 = .ok "RETRY no-quorum" ↔
      (s.answering ask).length + 1 ≤ s.peers.length / 2 := by
  simp only [clientWrite, hleader, ne_eq, not_true_eq_false, if_false]
  split_ifs with hquorum
  · simp only [hquorum]
  · refine iff_of_false ?_ hquorum
    rcases catchUpFrom ask (s.answering ask) s.store with ⟨m, e | u⟩
    · exact fun h => (nomatch h)
    dsimp only
    cases nextRecord { s with store := m } key value tombstone with
    | error e => exact fun h => (nomatch h)
    | ok record =>
      dsimp only
      cases merge m key { record with committed := true } with
      | error e =>
        dsimp only
        split_ifs
        · exact fun h => absurd (Except.ok.inj h) (by decide)
        · exact fun h => (nomatch h)
      | ok m' =>
        dsimp only
        split_ifs
        · exact fun h => absurd (Except.ok.inj h) (by decide)
        · exact fun h => append_ne (by decide) _ (Except.ok.inj h)
        · exact fun h => absurd (Except.ok.inj h) (by decide)

theorem readQuorum_iff (s : Server) (net : Network) (key : String) :
    s.ReadQuorum net key ↔ ¬ s.Tied (s.alivePeers net) := by
  rw [ReadQuorum, Tied, not_and]
  refine forall_congr' fun hleader => ?_
  rw [Ne, clientRead_refused hleader]
  exact check_iff s _

theorem writeQuorum_iff (s : Server) (ask : Ask) (key value : String) (tombstone : Bool) :
    s.WriteQuorum ask key value tombstone ↔ ¬ s.Tied (s.answering ask) := by
  rw [WriteQuorum, Tied, not_and]
  refine forall_congr' fun hleader => ?_
  rw [Ne, clientWrite_refused hleader]
  exact check_iff s _

end Check

/-! ## The nodes that serve -/

section Serving
variable {ids A : Finset U64} {s : Server} {net : Network} {alive : List U64}

/-- A leader that gets past the check has half of the nodes. -/
theorem Among.half (h : Among ids s) (halive : alive.Sublist s.peers)
    (hcheck : ¬ alive.length + 1 ≤ s.peers.length / 2) : Half ids (insert s.id alive.toFinset) := by
  have hpeers : ∀ peer ∈ alive, peer ∈ ids.erase s.id := fun peer hpeer => by
    rw [← h.peers]
    exact List.mem_toFinset.2 (halive.subset hpeer)
  have hnot : s.id ∉ alive.toFinset := fun hmem =>
    Finset.notMem_erase s.id ids (hpeers _ (List.mem_toFinset.1 hmem))
  have hcard : ids.card = s.peers.length + 1 := by
    rw [← Finset.card_erase_add_one h.id, ← h.peers, List.toFinset_card_of_nodup h.nodup]
  refine ⟨Finset.insert_subset h.id fun peer hpeer => ?_, Finset.insert_nonempty _ _, ?_⟩
  · exact Finset.mem_of_mem_erase (hpeers peer (List.mem_toFinset.1 hpeer))
  · rw [Finset.card_insert_of_notMem hnot, List.toFinset_card_of_nodup (halive.nodup h.nodup)]
    omega

theorem answering_sublist (s : Server) (ask : Ask) : (s.answering ask).Sublist s.peers :=
  List.filter_sublist.trans List.filter_sublist

theorem Serving.half (h : Serving ids A) : Half ids A := by
  cases h with
  | read hs hleader hgoOn =>
    exact hs.half (answering_sublist _ _) (mt (clientRead_refused hleader).2 hgoOn)
  | write hs hleader hgoOn =>
    exact hs.half (answering_sublist _ _) (mt (clientWrite_refused hleader).2 hgoOn)

/-- The network in which only the given nodes answer. -/
def component (ids A : Finset U64) : Network where
  server i := ⟨i, (ids.erase i).sort, [], []⟩
  passes peer _ := decide (peer ∈ A)

theorem length_pong (peer : U64) : (utf8 ("PONG " ++ peer.print)).length ≤ MAX_FRAME := by
  have hdigits : peer.print.length ≤ 20 :=
    Nat.repr_length peer.val 20 (by norm_num) (peer.isLt.trans (by norm_num))
  have hascii : ∀ c ∈ peer.print.toList, c.toNat < 128 := fun c hc =>
    (toNat_of_isDigit (U64.isDigit_print peer hc)).2.trans_lt (by norm_num)
  have hprint : (utf8 peer.print).length = peer.print.length := by
    have hutf8 := utf8_ascii hascii
    rw [String.ofList_toList] at hutf8
    rw [hutf8, List.length_map, String.length_toList]
  rw [utf8_append, List.length_append, hprint]
  have hpong : (utf8 "PONG ").length = 5 := by decide
  unfold MAX_FRAME
  omega

theorem component_ping (ids A : Finset U64) (peer : U64) :
    (component ids A).ask peer .ping = if peer ∈ A then some ("PONG " ++ peer.print) else none := by
  have hhandle : (((component ids A).server peer).handle (utf8 Request.ping.line)).2 =
      .done (.ok ("PONG " ++ peer.print)) := by
    rw [handle, Request.parse_line (by decide)]
    rfl
  have hpasses : (component ids A).passes peer .ping = true ↔ peer ∈ A := decide_eq_true_iff
  rw [Network.ask]
  by_cases hpeer : peer ∈ A
  · rw [if_pos hpeer, if_pos (hpasses.2 hpeer), hhandle]
    simp only [answerLine, Option.filter_some, length_pong, decide_true, if_true]
  · rw [if_neg hpeer, if_neg (mt hpasses.1 hpeer)]

theorem leader_eq (h : ∀ peer ∈ alive, s.id ≤ peer) : s.leader alive = s.id := by
  unfold leader
  induction alive with
  | nil => rfl
  | cons peer alive ih =>
    obtain ⟨hpeer, halive⟩ := List.forall_mem_cons.1 h
    rw [List.foldl_cons, min_eq_left hpeer]
    exact ih halive

/-- **Half of the nodes serve**, under the smallest of them. -/
theorem serving_of_half (h : Half ids A) : Serving ids A := by
  have hi : A.min' h.nonempty ∈ A := A.min'_mem h.nonempty
  have hmin : ∀ n ∈ A, A.min' h.nonempty ≤ n := fun n hn => A.min'_le n hn
  generalize A.min' h.nonempty = i at hi hmin
  let s : Server := (component ids A).server i
  have hs : Among ids s := ⟨h.subset hi, Finset.sort_nodup _ _, Finset.sort_toFinset _ _⟩
  have hpeers : s.peers.length + 1 = ids.card := by
    change ((ids.erase i).sort).length + 1 = ids.card
    rw [Finset.length_sort, Finset.card_erase_add_one (h.subset hi)]
  have hmem : ∀ peer, peer ∈ s.alivePeers (component ids A) ↔ peer ≠ i ∧ peer ∈ A := by
    intro peer
    have hpeer : peer ∈ s.peers ↔ peer ≠ i ∧ peer ∈ ids :=
      (Finset.mem_sort _).trans Finset.mem_erase
    have hask : (component ids A).ask peer .ping = some ("PONG " ++ peer.print) ↔ peer ∈ A := by
      rw [component_ping]
      split_ifs with hA <;> simp [hA]
    have hblocked : (!s.blocked.contains peer) = true := rfl
    rw [alivePeers, List.mem_filter, unblocked, List.mem_filter, hpeer, decide_eq_true_iff, hask]
    constructor
    · rintro ⟨⟨⟨hne, -⟩, -⟩, hA⟩
      exact ⟨hne, hA⟩
    · rintro ⟨hne, hA⟩
      exact ⟨⟨⟨hne, h.subset hA⟩, hblocked⟩, hA⟩
  have halive : (s.alivePeers (component ids A)).toFinset = A.erase i := by
    ext peer
    rw [List.mem_toFinset, hmem, Finset.mem_erase]
  have hnodup : (s.alivePeers (component ids A)).Nodup := (answering_sublist s _).nodup hs.nodup
  have hlen : (s.alivePeers (component ids A)).length + 1 = A.card := by
    rw [← List.toFinset_card_of_nodup hnodup, halive, Finset.card_erase_add_one hi]
  have hleader : s.leader (s.alivePeers (component ids A)) = s.id :=
    leader_eq fun peer hpeer => hmin peer ((hmem peer).1 hpeer).2
  have hgoOn : (s.clientRead (component ids A) "").2 ≠ .ok "RETRY no-quorum" := by
    rw [Ne, clientRead_refused hleader]
    have hcard := h.card
    omega
  have hA : insert s.id (s.alivePeers (component ids A)).toFinset = A := by
    rw [halive]
    exact Finset.insert_erase hi
  rw [← hA]
  exact .read hs hleader hgoOn

/-- The sets of nodes that serve. -/
theorem serving_iff : Serving ids A ↔ Half ids A := ⟨Serving.half, serving_of_half⟩

end Serving

/-- **When quorums are majorities**: a leader goes on with an operation exactly if it has a strict
    majority, unless it has exactly half of the nodes; and any two sets of nodes that serve have a
    node in common exactly if the number of nodes is odd. -/
theorem quorum_iff (s : Server) (net : Network) (ask : Ask) (key value : String) (tombstone : Bool)
    (ids : Finset U64) :
    (s.ReadQuorum net key ↔ ¬ s.Tied (s.alivePeers net)) ∧
    (s.WriteQuorum ask key value tombstone ↔ ¬ s.Tied (s.answering ask)) ∧
    ((∀ A B, Serving ids A → Serving ids B → (A ∩ B).Nonempty) ↔ (Even ids.card → ids = ∅)) := by
  refine ⟨readQuorum_iff s net key, writeQuorum_iff s ask key value tombstone, ?_⟩
  simp only [serving_iff]
  exact half_meet_iff

/-- Of two nodes that do not reach each other both go on. -/
theorem not_quorum :
    ¬ ReadQuorum ⟨1, [2], [], []⟩ (component {1, 2} {1}) "k" ∧
      ¬ WriteQuorum ⟨1, [2], [], []⟩ (fun _ _ => none) "k" "v" false ∧
      Serving {1, 2} {1} ∧ Serving {1, 2} {2} := by
  have halone : alivePeers ⟨1, [2], [], []⟩ (component {1, 2} {1}) = [] := by
    have hunblocked : unblocked ⟨1, [2], [], []⟩ = [2] := rfl
    rw [alivePeers, hunblocked, List.filter_cons_of_neg (by rw [component_ping]; decide), List.filter_nil]
  refine ⟨?_, ?_, ?_, ?_⟩
  · rw [readQuorum_iff, not_not, halone]
    exact ⟨rfl, rfl⟩
  · rw [writeQuorum_iff, not_not]
    exact ⟨rfl, rfl⟩
  · exact serving_of_half ⟨by decide, by decide, by decide⟩
  · exact serving_of_half ⟨by decide, by decide, by decide⟩

end NutDb.Server
