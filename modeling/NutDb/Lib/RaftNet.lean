/-
  The Raft protocol over a network that delays, repeats, reorders and loses
  messages.

  A message that was sent stays in the network and may be delivered at any time,
  any number of times or never.  A server that acknowledges the entries of a leader
  may lose them only to a later leader (`Traced`), which had them itself if they
  are chosen: acknowledged by a majority, up to an entry of the term (`Chosen`).
  `NetInv` is the invariant; one rule for each kind of step keeps it.
-/
import NutDb.Lib.Raft
import Mathlib.Order.WellFounded

namespace Lib

namespace Raft

/-- What a server is doing. -/
inductive Mode where
  | follows | stands | leads
  deriving DecidableEq

/-- A server. -/
structure Server (N T E : Type) where
  term : T
  vote : Option N
  log : List E
  mode : Mode
  commit : ℕ

/-- A candidate asks for votes; it says how long its log is and of which term its last entry is. -/
structure Ask (N T : Type) where
  term : T
  candidate : N
  length : ℕ
  last : T

/-- A leader sends its log from an index on. -/
structure Send (N T E : Type) where
  term : T
  leader : N
  prev : ℕ
  prevTerm : T
  entries : List E
  commit : ℕ

/-- The servers and the messages that were ever sent: requests for votes, votes (of a server, in a
    term, for a candidate), entries for a server, and acknowledgements (of a server, in a term, up to
    an index). -/
structure Net (N T E : Type) where
  server : N → Server N T E
  asks : Set (Ask N T)
  casts : Set (N × T × N)
  sends : Set (N × Send N T E)
  acks : Set (N × T × ℕ)

section Defs
variable {N T E : Type} [LinearOrder T]

/-- A server has acknowledged the ledger of a term up to an index; a leader has its own ledger. -/
def Acked (net : Net N T E) (g : Ghost N T E) (q : N) (t : T) (m : ℕ) : Prop :=
  (∃ m', (q, t, m') ∈ net.acks ∧ m ≤ m') ∨ (g.elected t = some q ∧ m ≤ (g.ledger t).length)

/-- A log has the first entries of the ledger of a term, or it was taken from the leader of a later
    term: it has at least what that leader had when it was elected. -/
def Traced (g : Ghost N T E) (base : T → ℕ) (P : T → Prop) (t : T) (m : ℕ) (log : List E) : Prop :=
  (m ≤ log.length ∧ log.take m = (g.ledger t).take m) ∨
    ∃ t', t < t' ∧ P t' ∧ (g.elected t').isSome ∧ (g.ledger t').take (base t') <+: log

/-- The log with which a server votes in a term. -/
structure Ballot (τ : E → T) (net : Net N T E) (g : Ghost N T E) (base : T → ℕ) (P : T → Prop) (v : N)
    (t : T) (log : List E) : Prop where
  ok : LogOk τ g t log
  traced : ∀ t₀ m, t₀ < t → Acked net g v t₀ m → Traced g base P t₀ m log

/-- A log is not more up to date than a log with this last term and length. -/
def Behind (τ : E → T) (zero : T) (log : List E) (last : T) (length : ℕ) : Prop :=
  lastTerm τ zero log < last ∨ (lastTerm τ zero log = last ∧ log.length ≤ length)

variable (τ : E → T) (zero : T) (ids : Finset N) (net : Net N T E) (g : Ghost N T E) (base : T → ℕ)

/-- A prefix of the ledger of a term is chosen: it ends with an entry of the term, and a majority has
    acknowledged it. -/
structure Chosen (t : T) (k : ℕ) : Prop where
  elected : (g.elected t).isSome
  pos : 0 < k
  last : ∃ e, (g.ledger t)[k - 1]? = some e ∧ τ e = t
  acked : Majority ids fun q => Acked net g q t k

/-- A commit index in a term: it lies within a chosen prefix. -/
def Within (k : ℕ) (t : T) : Prop := k = 0 ∨ ∃ t' j, Chosen τ ids net g t' j ∧ k ≤ j ∧ t' ≤ t

/-- The commit index of a server. -/
def Covers (s : Server N T E) : Prop :=
  s.commit ≤ s.log.length ∧ (s.commit = 0 ∨ ∃ t j, Chosen τ ids net g t j ∧ s.commit ≤ j ∧ t ≤ s.term ∧
    s.log.take s.commit = (g.ledger t).take s.commit)

structure AskOk (a : Ask N T) : Prop where
  mem : a.candidate ∈ ids
  term_le : a.term ≤ (net.server a.candidate).term
  log : (net.server a.candidate).term = a.term → (net.server a.candidate).mode = .stands →
    a.length = (net.server a.candidate).log.length ∧ a.last = lastTerm τ zero (net.server a.candidate).log

structure CastOk (v : N) (t : T) (c : N) : Prop where
  mem : v ∈ ids
  term_le : t ≤ (net.server v).term
  vote : (net.server v).term = t → (net.server v).vote = some c
  ask : ∃ a ∈ net.asks, a.term = t ∧ a.candidate = c ∧
    ∃ log, Ballot τ net g base (· ≤ t) v t log ∧ Behind τ zero log a.last a.length

structure ElectedOk (t : T) (l : N) : Prop where
  mem : l ∈ ids
  term_le : t ≤ (net.server l).term
  leads : (net.server l).term = t → (net.server l).mode = .leads
  log : LogOk τ g t (g.ledger t)
  base_le : base t ≤ (g.ledger t).length
  base_lt : ∀ e ∈ (g.ledger t).take (base t), τ e < t
  votes : Majority ids fun v => (v, t, l) ∈ net.casts ∧ ∃ log, Ballot τ net g base (· < t) v t log ∧
    UpToDate τ zero ((g.ledger t).take (base t)) log

structure SendOk (q : N) (s : Send N T E) : Prop where
  mem : q ∈ ids
  elected : g.elected s.term = some s.leader
  other : q ≠ s.leader
  base_le : base s.term ≤ s.prev + s.entries.length
  le : s.prev + s.entries.length ≤ (g.ledger s.term).length
  entries : (g.ledger s.term).take s.prev ++ s.entries = (g.ledger s.term).take (s.prev + s.entries.length)
  prev : 0 < s.prev → ∃ e, (g.ledger s.term)[s.prev - 1]? = some e ∧ τ e = s.prevTerm
  commit_le : s.commit ≤ s.prev + s.entries.length
  within : Within τ ids net g s.commit s.term

structure AckedOk (q : N) (t : T) (m : ℕ) : Prop where
  mem : q ∈ ids
  elected : (g.elected t).isSome
  term_le : t ≤ (net.server q).term
  le : m ≤ (g.ledger t).length
  traced : Traced g base (· ≤ (net.server q).term) t m (net.server q).log

/-- **The invariant.** -/
structure NetInv : Prop where
  log : ∀ n ∈ ids, LogOk τ g (net.server n).term (net.server n).log
  leads : ∀ n ∈ ids, (net.server n).mode = .leads →
    g.elected (net.server n).term = some n ∧ (net.server n).log = g.ledger (net.server n).term
  commit : ∀ n ∈ ids, Covers τ ids net g (net.server n)
  ask : ∀ a ∈ net.asks, AskOk τ zero ids net a
  cast : ∀ v t c, (v, t, c) ∈ net.casts → CastOk τ zero ids net g base v t c
  once : ∀ v t c c', (v, t, c) ∈ net.casts → (v, t, c') ∈ net.casts → c = c'
  elected : ∀ t l, g.elected t = some l → ElectedOk τ zero ids net g base t l
  send : ∀ q s, (q, s) ∈ net.sends → SendOk τ ids net g base q s
  acked : ∀ q t m, Acked net g q t m → AckedOk ids net g base q t m

end Defs

/-! ## Chosen prefixes -/

section Chosen
variable {N T E : Type} {τ : E → T} {zero : T} {ids : Finset N} {net : Net N T E} {g : Ghost N T E}
  {base : T → ℕ} {t t' : T} {k m : ℕ} {log : List E} {P P' : T → Prop}

theorem Chosen.length_le (h : Chosen τ ids net g t k) : k ≤ (g.ledger t).length := by
  obtain ⟨e, he, -⟩ := h.last
  have := (List.getElem?_eq_some_iff.1 he).1
  have := h.pos
  omega

theorem le_length_of_take_eq {a b : List E} (h : a.take k = b.take k) (hk : k ≤ b.length) : k ≤ a.length := by
  have hlen := congrArg List.length h
  rw [List.length_take, List.length_take] at hlen
  omega

variable [LinearOrder T]

theorem LogOk.take (h : LogOk τ g t log) (i : ℕ) : LogOk τ g t (log.take i) := by
  refine ⟨h.sorted.sublist (List.take_sublist i log), fun e he => h.le e (List.mem_of_mem_take he), ?_⟩
  intro j e hj
  have hlt := (List.getElem?_eq_some_iff.1 hj).1
  rw [List.length_take] at hlt
  rw [List.getElem?_take, if_pos (by omega)] at hj
  obtain ⟨h1, h2⟩ := h.known j e hj
  exact ⟨h1, by rw [List.take_take, Nat.min_eq_left (by omega)]; exact h2⟩

/-- A log that is traced to later leaders has the prefix if they had it when they were elected. -/
theorem Traced.take (h : Traced g base P t k log)
    (hlater : ∀ t', t < t' → P t' → (g.elected t').isSome →
      k ≤ base t' ∧ (g.ledger t').take k = (g.ledger t).take k)
    (hbase : ∀ t', (g.elected t').isSome → base t' ≤ (g.ledger t').length) :
    log.take k = (g.ledger t).take k := by
  rcases h with ⟨-, h⟩ | ⟨t', hlt, hP, he, hpre⟩
  · exact h
  · obtain ⟨hle, heq⟩ := hlater t' hlt hP he
    have hlen : k ≤ ((g.ledger t').take (base t')).length := by
      rw [List.length_take, Nat.min_eq_left (hbase t' he)]
      exact hle
    rw [take_of_grown hpre hlen, List.take_take, Nat.min_eq_left hle, heq]

theorem NetInv.base_le (h : NetInv τ zero ids net g base) (he : (g.elected t).isSome) :
    base t ≤ (g.ledger t).length := by
  obtain ⟨l, hl⟩ := Option.isSome_iff_exists.1 he
  exact (h.elected t l hl).base_le

variable [DecidableEq N]

/-- **Leader completeness**: the leaders of later terms had a chosen prefix when they were elected. -/
theorem NetInv.later (h : NetInv τ zero ids net g base) [WellFoundedLT T] (hzero : ∀ t : T, zero ≤ t)
    (hc : Chosen τ ids net g t k) :
    ∀ t', t < t' → (g.elected t').isSome → k ≤ base t' ∧ (g.ledger t').take k = (g.ledger t).take k := by
  intro t'
  induction t' using WellFoundedLT.induction with
  | ind t' ih =>
    intro hlt he
    obtain ⟨l, hl⟩ := Option.isSome_iff_exists.1 he
    have hel := h.elected t' l hl
    -- the majorities of the acknowledgements and of the votes meet
    obtain ⟨v, -, hack, -, vlog, hballot, hup⟩ := hc.acked.meet hel.votes
    have hvlog : vlog.take k = (g.ledger t).take k := by
      refine (hballot.traced t k hlt hack).take (fun t'' h1 h2 h3 => ih t'' h2 h1 h3) ?_
      exact fun t'' he'' => h.base_le he''
    have hle : ∀ e ∈ g.ledger t, τ e ≤ t := by
      obtain ⟨l₀, hl₀⟩ := Option.isSome_iff_exists.1 hc.elected
      exact (h.elected t l₀ hl₀).log.le
    have hwin : ((g.ledger t').take (base t')).take k = (g.ledger t).take k := by
      refine Raft.take_of_upToDate hzero hc.pos hc.last hle (hel.log.take _) hballot.ok ?_ hvlog hup
      intro e hmem hlt'
      obtain ⟨j, hj⟩ := List.mem_iff_getElem?.1 hmem
      exact (ih (τ e) (hel.base_lt e hmem) hlt' ((hel.log.take _).known j e hj).1).2
    have hk : k ≤ base t' := by
      have hlen := le_length_of_take_eq hwin hc.length_le
      rw [List.length_take] at hlen
      omega
    rw [List.take_take, Nat.min_eq_left hk] at hwin
    exact ⟨hk, hwin⟩

/-- The ledgers of the terms from that of a chosen prefix on have it. -/
theorem NetInv.take_ledger (h : NetInv τ zero ids net g base) [WellFoundedLT T] (hzero : ∀ t : T, zero ≤ t)
    (hc : Chosen τ ids net g t k) (ht : t ≤ t') (he : (g.elected t').isSome) :
    (g.ledger t').take k = (g.ledger t).take k := by
  rcases ht.lt_or_eq with hlt | rfl
  · exact (h.later hzero hc t' hlt he).2
  · rfl

/-- **A majority keeps a chosen prefix.** -/
theorem NetInv.held (h : NetInv τ zero ids net g base) [WellFoundedLT T] (hzero : ∀ t : T, zero ≤ t)
    (hc : Chosen τ ids net g t k) :
    Majority ids fun q => (net.server q).log.take k = (g.ledger t).take k := by
  refine hc.acked.mono fun q _ hack => ?_
  refine (h.acked q t k hack).traced.take (fun t' h1 _ h3 => h.later hzero hc t' h1 h3) ?_
  exact fun t' he => h.base_le he

end Chosen

/-! ## Growth of the history -/

section Grown
variable {N T E : Type} {τ : E → T} {zero : T} {ids : Finset N} {net net' : Net N T E}
  {g g' : Ghost N T E} {base base' : T → ℕ} {t : T} {k m : ℕ} {q v : N} {log : List E} {P : T → Prop}

/-- Acknowledgements and elections stay, and ledgers grow. -/
structure Grown (net net' : Net N T E) (g g' : Ghost N T E) (base base' : T → ℕ) : Prop where
  later : g.Later g'
  base : ∀ t, (g.elected t).isSome → base' t = base t
  acks : net.acks ⊆ net'.acks

theorem Acked.grown (hg : Grown net net' g g' base base') (h : Acked net g q t m) : Acked net' g' q t m := by
  rcases h with ⟨m', hm', hle⟩ | ⟨he, hle⟩
  · exact Or.inl ⟨m', hg.acks hm', hle⟩
  · obtain ⟨h1, h2⟩ := hg.later.elected t q he
    exact Or.inr ⟨h1, hle.trans h2.length_le⟩

theorem Chosen.grown (hg : Grown net net' g g' base base') (h : Chosen τ ids net g t k) :
    Chosen τ ids net' g' t k := by
  obtain ⟨h1, h2⟩ := hg.later.isSome h.elected
  refine ⟨h1, h.pos, ?_, h.acked.mono fun q _ hq => hq.grown hg⟩
  obtain ⟨e, he, hτ⟩ := h.last
  obtain ⟨rest, hr⟩ := h2
  exact ⟨e, by rw [← hr, List.getElem?_append_left (List.getElem?_eq_some_iff.1 he).1, he], hτ⟩

variable [LinearOrder T]

theorem Within.grown (hg : Grown net net' g g' base base') (h : Within τ ids net g k t) :
    Within τ ids net' g' k t := by
  rcases h with h | ⟨t', j, hc, hk, ht⟩
  · exact Or.inl h
  · exact Or.inr ⟨t', j, hc.grown hg, hk, ht⟩

theorem Covers.grown (hg : Grown net net' g g' base base') {s : Server N T E} (h : Covers τ ids net g s) :
    Covers τ ids net' g' s := by
  obtain ⟨h1, h2 | ⟨t, j, hc, hk, ht, htake⟩⟩ := h
  · exact ⟨h1, Or.inl h2⟩
  · refine ⟨h1, Or.inr ⟨t, j, hc.grown hg, hk, ht, ?_⟩⟩
    rw [htake, take_of_grown (hg.later.isSome hc.elected).2 (hk.trans hc.length_le)]

theorem Traced.grown (hg : Grown net net' g g' base base') (he : (g.elected t).isSome)
    (hm : m ≤ (g.ledger t).length) (hbase : ∀ t, (g.elected t).isSome → base t ≤ (g.ledger t).length)
    (h : Traced g base P t m log) : Traced g' base' P t m log := by
  rcases h with ⟨h1, h2⟩ | ⟨t', hlt, hP, he', hpre⟩
  · exact Or.inl ⟨h1, by rw [h2, take_of_grown (hg.later.isSome he).2 hm]⟩
  · obtain ⟨h1, h2⟩ := hg.later.isSome he'
    refine Or.inr ⟨t', hlt, hP, h1, ?_⟩
    rw [hg.base t' he', take_of_grown h2 (hbase t' he')]
    exact hpre

theorem Traced.mono {P' : T → Prop} (h : Traced g base P t m log) (hP : ∀ t', P t' → P' t') :
    Traced g base P' t m log := by
  rcases h with h | ⟨t', hlt, hP', he, hpre⟩
  · exact Or.inl h
  · exact Or.inr ⟨t', hlt, hP t' hP', he, hpre⟩

/-- A ballot stays, if its server acknowledges nothing of an earlier term any more. -/
theorem Ballot.grown (hg : Grown net net' g g' base base') (h : NetInv τ zero ids net g base)
    (hacked : ∀ t₀ m, t₀ < t → Acked net' g' v t₀ m → Acked net g v t₀ m)
    (hb : Ballot τ net g base P v t log) : Ballot τ net' g' base' P v t log := by
  refine ⟨hb.ok.later hg.later, fun t₀ m hlt hack => ?_⟩
  have hack := hacked t₀ m hlt hack
  have hok := h.acked v t₀ m hack
  exact (hb.traced t₀ m hlt hack).grown hg hok.elected hok.le fun t he => h.base_le he

end Grown

/-! ## Changes of a server -/

section Update
variable {N T E : Type} {τ : E → T} {zero : T} {ids : Finset N} {net : Net N T E} {g : Ghost N T E}
  {base : T → ℕ} {n q : N} {s : Server N T E}

/-- Change a server. -/
def Net.set [DecidableEq N] (net : Net N T E) (n : N) (s : Server N T E) : Net N T E :=
  { net with server := Function.update net.server n s }

theorem Net.set_self [DecidableEq N] (net : Net N T E) (n : N) (s : Server N T E) : (net.set n s).server n = s :=
  Function.update_self ..

theorem Net.set_other [DecidableEq N] (net : Net N T E) (s : Server N T E) (h : q ≠ n) :
    (net.set n s).server q = net.server q := Function.update_of_ne h ..

/-- What holds of the changed server, and of each other one, holds of every server. -/
theorem Net.set_cases [DecidableEq N] {P : N → Server N T E → Prop} (q : N) (hn : P n s)
    (hq : q ≠ n → P q (net.server q)) : P q ((net.set n s).server q) := by
  by_cases hqn : q = n
  · rw [hqn, Net.set_self]
    exact hn
  · rw [Net.set_other net s hqn]
    exact hq hqn

theorem grown_set [DecidableEq N] (net : Net N T E) (g : Ghost N T E) (base : T → ℕ) (n : N) (s : Server N T E) :
    Grown net (net.set n s) g g base base := ⟨.refl g, fun _ _ => rfl, subset_rfl⟩

variable [LinearOrder T]

/-- The log has an entry that matches the one before the entries of a leader. -/
def Fits (τ : E → T) (log : List E) (x : Send N T E) : Prop :=
  x.prev ≤ log.length ∧ (0 < x.prev → ∃ e, log[x.prev - 1]? = some e ∧ τ e = x.prevTerm)

/-- The entries are those that the server has had from their leader before, but fewer. -/
def Stale (s : Server N T E) (x : Send N T E) : Prop :=
  x.term = s.term ∧ s.log.take x.prev ++ x.entries <+: s.log ∧ x.prev + x.entries.length < s.log.length

/-- The log after the entries of a leader is what the leader had. -/
theorem NetInv.log_of_send (h : NetInv τ zero ids net g base) {x : Send N T E} (hs : (n, x) ∈ net.sends)
    (hn : n ∈ ids) (hfits : Fits τ (net.server n).log x) :
    (net.server n).log.take x.prev ++ x.entries = (g.ledger x.term).take (x.prev + x.entries.length) := by
  have hok := h.send n x hs
  rw [← hok.entries]
  congr 1
  rcases Nat.eq_zero_or_pos x.prev with h0 | hpos
  · rw [h0, List.take_zero, List.take_zero]
  · obtain ⟨e, he, hτ⟩ := hfits.2 hpos
    obtain ⟨e', he', hτ'⟩ := hok.prev hpos
    have h1 := ((h.log n hn).known _ e he).2
    have h2 := ((h.elected _ _ hok.elected).log.known _ e' he').2
    rw [Nat.sub_add_cancel hpos] at h1 h2
    rw [h1, h2, hτ, hτ']

/-- What a change of a server has to respect: it does not go back to an earlier term, votes once in a
    term, stays leader, and loses entries that it has acknowledged only to a later leader. -/
structure Moves (τ : E → T) (ids : Finset N) (net : Net N T E) (g : Ghost N T E) (base : T → ℕ) (n : N)
    (s : Server N T E) : Prop where
  term_le : (net.server n).term ≤ s.term
  vote : s.term = (net.server n).term → (net.server n).vote = none ∨ s.vote = (net.server n).vote
  log : LogOk τ g s.term s.log
  leads : s.mode = .leads →
    (net.server n).mode = .leads ∧ s.term = (net.server n).term ∧ s.log = (net.server n).log
  stays : (net.server n).mode = .leads → s.term = (net.server n).term → s.mode = .leads
  stands : s.mode = .stands → (net.server n).term < s.term ∨
    ((net.server n).mode = .stands ∧ s.term = (net.server n).term ∧ s.log = (net.server n).log)
  traced : ∀ t m, Acked net g n t m → Traced g base (· ≤ s.term) t m s.log
  covers : Covers τ ids net g s

/-- **A change of a server.** -/
theorem NetInv.update [DecidableEq N] (h : NetInv τ zero ids net g base) (hn : n ∈ ids)
    (hm : Moves τ ids net g base n s) : NetInv τ zero ids (net.set n s) g base := by
  have hg := grown_set net g base n s
  -- what is said of a server is checked for the changed one and for the others
  have hcase : ∀ {p : N → Server N T E → Prop} (q : N), p n s → (q ≠ n → p q (net.server q)) →
      p q ((net.set n s).server q) := by
    intro p q h1 h2
    by_cases hqn : q = n
    · rw [hqn, Net.set_self]
      exact h1
    · rw [Net.set_other net s hqn]
      exact h2 hqn
  have hterm : ∀ q, (net.server q).term ≤ ((net.set n s).server q).term := by
    intro q
    exact hcase (p := fun q s => (net.server q).term ≤ s.term) q hm.term_le fun _ => le_rfl
  refine ⟨?_, ?_, ?_, ?_, ?_, h.once, ?_, ?_, ?_⟩
  · intro q hq
    exact hcase (p := fun q s => LogOk τ g s.term s.log) q hm.log fun _ => h.log q hq
  · intro q hq
    refine hcase (p := fun q s => s.mode = .leads → g.elected s.term = some q ∧ s.log = g.ledger s.term) q
      (fun hmode => ?_) fun _ => h.leads q hq
    obtain ⟨h1, h2, h3⟩ := hm.leads hmode
    rw [h2, h3]
    exact h.leads n hn h1
  · intro q hq
    exact (hcase (p := fun q s => Covers τ ids net g s) q hm.covers fun _ => h.commit q hq).grown hg
  · intro a ha
    have hok := h.ask a ha
    refine ⟨hok.mem, hok.term_le.trans (hterm _), ?_⟩
    refine hcase (p := fun q s => a.candidate = q → s.term = a.term → s.mode = .stands →
      a.length = s.log.length ∧ a.last = lastTerm τ zero s.log) a.candidate ?_ ?_ rfl
    · rintro hq hta hmode
      have hle := hok.term_le
      rw [hq] at hle
      rcases hm.stands hmode with hlt | ⟨h1, h2, h3⟩
      · exact absurd (hlt.trans_eq hta) (not_lt.2 hle)
      · rw [h3]
        have hlog := hok.log
        rw [hq] at hlog
        exact hlog (h2.symm.trans hta) h1
    · intro _ _
      exact hok.log
  · intro v t c hv
    have hok := h.cast v t c hv
    obtain ⟨a, ha, h1, h2, log, hballot, hbehind⟩ := hok.ask
    refine ⟨hok.mem, hok.term_le.trans (hterm v), ?_, a, ha, h1, h2, log,
      hballot.grown hg h fun _ _ _ hack => hack, hbehind⟩
    refine hcase (p := fun q s => v = q → s.term = t → s.vote = some c) v ?_ ?_ rfl
    · rintro rfl hst
      have hsame : (net.server v).term = t := le_antisymm (hst ▸ hm.term_le) hok.term_le
      have hvote := hok.vote hsame
      rcases hm.vote (hst.trans hsame.symm) with hnone | heq
      · rw [hvote] at hnone
        cases hnone
      · rw [heq, hvote]
    · intro _ _
      exact hok.vote
  · intro t l hl
    have hok := h.elected t l hl
    refine ⟨hok.mem, hok.term_le.trans (hterm l), ?_, hok.log, hok.base_le, hok.base_lt, ?_⟩
    · refine hcase (p := fun q s => l = q → s.term = t → s.mode = .leads) l ?_ ?_ rfl
      · rintro rfl hst
        have hsame : (net.server l).term = t := le_antisymm (hst ▸ hm.term_le) hok.term_le
        exact hm.stays (hok.leads hsame) (hst.trans hsame.symm)
      · intro _ _
        exact hok.leads
    · refine hok.votes.mono ?_
      rintro v - ⟨hv, log, hballot, hup⟩
      exact ⟨hv, log, hballot.grown hg h fun _ _ _ hack => hack, hup⟩
  · intro q x hx
    have hok := h.send q x hx
    exact { hok with within := hok.within.grown hg }
  · intro q t m hack
    have hok := h.acked q t m hack
    refine ⟨hok.mem, hok.elected, hok.term_le.trans (hterm q), hok.le, ?_⟩
    refine hcase (p := fun q s => Acked net g q t m → Traced g base (· ≤ s.term) t m s.log) q ?_ ?_ hack
    · exact hm.traced t m
    · intro _ _
      exact hok.traced

/-- Changing the term, the vote or the mode of a server. -/
theorem NetInv.moves (h : NetInv τ zero ids net g base) (hn : n ∈ ids) (hlog : s.log = (net.server n).log)
    (hcommit : s.commit = (net.server n).commit)
    (hterm : ((net.server n).term < s.term ∧ s.mode ≠ .leads) ∨
      (s.term = (net.server n).term ∧
        (s.mode = (net.server n).mode ∨ (s.mode = .follows ∧ (net.server n).mode ≠ .leads)) ∧
        ((net.server n).vote = none ∨ s.vote = (net.server n).vote))) :
    Moves τ ids net g base n s := by
  have hle : (net.server n).term ≤ s.term := by
    rcases hterm with ⟨hlt, -⟩ | ⟨heq, -⟩
    · exact hlt.le
    · exact heq.ge
  obtain ⟨h1, h2, h3⟩ := h.log n hn
  refine ⟨hle, ?_, ?_, ?_, ?_, ?_, ?_, ?_⟩
  · intro heq
    rcases hterm with ⟨hlt, -⟩ | ⟨-, -, hvote⟩
    · exact absurd hlt (heq ▸ lt_irrefl _)
    · exact hvote
  · rw [hlog]
    exact ⟨h1, fun e he => (h2 e he).trans hle, h3⟩
  · intro hmode
    rcases hterm with ⟨-, hnot⟩ | ⟨heq, hm | ⟨hm, -⟩, -⟩
    · exact absurd hmode hnot
    · exact ⟨hm ▸ hmode, heq, hlog⟩
    · rw [hm] at hmode
      cases hmode
  · intro hmode heq
    rcases hterm with ⟨hlt, -⟩ | ⟨-, hm | ⟨-, hm⟩, -⟩
    · exact absurd hlt (heq ▸ lt_irrefl _)
    · rw [hm, hmode]
    · exact absurd hmode hm
  · intro hmode
    rcases hterm with ⟨hlt, -⟩ | ⟨heq, hm | ⟨hm, -⟩, -⟩
    · exact Or.inl hlt
    · exact Or.inr ⟨hm ▸ hmode, heq, hlog⟩
    · rw [hm] at hmode
      cases hmode
  · intro t m hack
    rw [hlog]
    exact (h.acked n t m hack).traced.mono fun t' ht' => ht'.trans hle
  · obtain ⟨hc, hcov⟩ := h.commit n hn
    rw [Covers, hlog, hcommit]
    refine ⟨hc, hcov.imp_right ?_⟩
    rintro ⟨t, j, hch, hj, ht, htake⟩
    exact ⟨t, j, hch, hj, ht.trans hle, htake⟩

/-- **Taking the entries of a leader**, unless they are stale. -/
theorem NetInv.accepts [DecidableEq N] (h : NetInv τ zero ids net g base) [WellFoundedLT T] (hzero : ∀ t : T, zero ≤ t)
    {x : Send N T E} (hs : (n, x) ∈ net.sends) (hle : (net.server n).term ≤ x.term)
    (hfits : Fits τ (net.server n).log x) (hstale : ¬ Stale (net.server n) x)
    (hterm : s.term = x.term) (hvote : (net.server n).term < x.term ∨ s.vote = (net.server n).vote)
    (hmode : s.mode = .follows) (hlog : s.log = (net.server n).log.take x.prev ++ x.entries)
    (hcommit : s.commit = (net.server n).commit ∨ s.commit = min x.commit s.log.length) :
    Moves τ ids net g base n s := by
  have hok := h.send n x hs
  have hn := hok.mem
  have hel := h.elected _ _ hok.elected
  have hsome : (g.elected x.term).isSome := by rw [hok.elected]; rfl
  have hnew := h.log_of_send hs hn hfits
  rw [← hlog] at hnew
  have hlen : s.log.length = x.prev + x.entries.length := by
    rw [hnew, List.length_take, Nat.min_eq_left hok.le]
  -- what the server has of this ledger already is kept
  have hkeep : ∀ m, (net.server n).term = x.term → m ≤ (net.server n).log.length →
      (net.server n).log.take m = (g.ledger x.term).take m → m ≤ s.log.length := by
    intro m heq hm htake
    by_contra hlt
    rw [hlen, not_le] at hlt
    refine hstale ⟨heq.symm, ?_, hlt.trans_le hm⟩
    have hcut := congrArg (List.take (x.prev + x.entries.length)) htake
    rw [List.take_take, List.take_take, Nat.min_eq_left hlt.le, ← hnew] at hcut
    rw [← hlog, ← hcut]
    exact List.take_prefix _ _
  have htake : ∀ m, m ≤ s.log.length → s.log.take m = (g.ledger x.term).take m := by
    intro m hm
    rw [hnew, List.take_take, Nat.min_eq_left (hlen ▸ hm)]
  refine ⟨hterm ▸ hle, ?_, ?_, ?_, ?_, ?_, ?_, ?_⟩
  · intro heq
    rcases hvote with hlt | hv
    · exact absurd hlt (by rw [← hterm, heq]; exact lt_irrefl _)
    · exact Or.inr hv
  · rw [hterm, hnew]
    exact hel.log.take _
  · intro hm
    rw [hmode] at hm
    cases hm
  · intro hm heq
    obtain ⟨hself, -⟩ := h.leads n hn hm
    rw [← heq, hterm, hok.elected] at hself
    exact absurd (Option.some.inj hself).symm hok.other
  · intro hm
    rw [hmode] at hm
    cases hm
  · intro t m hack
    have hack := h.acked n t m hack
    rcases (hack.term_le.trans hle).lt_or_eq with hlt | heq
    · refine Or.inr ⟨x.term, hlt, hterm.ge, hsome, ?_⟩
      rw [hnew, show (g.ledger x.term).take (base x.term) =
        ((g.ledger x.term).take (x.prev + x.entries.length)).take (base x.term) by
          rw [List.take_take, Nat.min_eq_left hok.base_le]]
      exact List.take_prefix _ _
    · subst heq
      have hsame : (net.server n).term = x.term := le_antisymm hle hack.term_le
      rcases hack.traced with ⟨hm, htk⟩ | ⟨t', hlt, hle', -⟩
      · have hm' := hkeep m hsame hm htk
        exact Or.inl ⟨hm', htake m hm'⟩
      · exact absurd (hlt.trans_le (hle'.trans_eq hsame)) (lt_irrefl _)
  · -- a commit index within a chosen prefix
    have hwithin : ∀ k t j, Chosen τ ids net g t j → k ≤ j → t ≤ x.term → k ≤ s.log.length →
        s.log.take k = (g.ledger t).take k := by
      intro k t j hch hj ht hk
      have := congrArg (List.take k) (h.take_ledger hzero hch ht hsome)
      rw [List.take_take, List.take_take, Nat.min_eq_left hj] at this
      rw [htake k hk, this]
    rcases hcommit with hc | hc
    · obtain ⟨hlen', hcov⟩ := h.commit n hn
      rw [Covers, hc, hterm]
      rcases hcov with h0 | ⟨t, j, hch, hj, ht, htk⟩
      · exact ⟨by rw [h0]; exact Nat.zero_le _, Or.inl h0⟩
      · have hk : (net.server n).commit ≤ s.log.length := by
          rcases (ht.trans hle).lt_or_eq with hlt | heq
          · rw [hlen]
            exact (hj.trans (h.later hzero hch _ hlt hsome).1).trans hok.base_le
          · subst heq
            exact hkeep _ (le_antisymm hle ht) hlen' htk
        exact ⟨hk, Or.inr ⟨t, j, hch, hj, ht.trans hle, hwithin _ t j hch hj (ht.trans hle) hk⟩⟩
    · have hmin : s.commit = x.commit := by
        rw [hc, Nat.min_eq_left (by rw [hlen]; exact hok.commit_le)]
      have hk : x.commit ≤ s.log.length := by
        rw [hlen]
        exact hok.commit_le
      rw [Covers, hmin, hterm]
      rcases hok.within with h0 | ⟨t, j, hch, hj, ht⟩
      · exact ⟨hk, Or.inl h0⟩
      · exact ⟨hk, Or.inr ⟨t, j, hch, hj, ht, hwithin _ t j hch hj ht hk⟩⟩

/-- **Committing** a prefix of the log of a leader that is chosen. -/
theorem NetInv.commits (h : NetInv τ zero ids net g base) (hn : n ∈ ids)
    (hleads : (net.server n).mode = .leads) {k : ℕ} (hch : Chosen τ ids net g (net.server n).term k) :
    Moves τ ids net g base n { net.server n with commit := k } := by
  obtain ⟨-, hlog⟩ := h.leads n hn hleads
  refine ⟨le_rfl, fun _ => Or.inr rfl, h.log n hn, fun hm => ⟨hm, rfl, rfl⟩, fun hm _ => hm,
    fun hm => Or.inr ⟨hm, rfl, rfl⟩, fun t m hack => (h.acked n t m hack).traced, ?_, Or.inr ?_⟩
  · show k ≤ (net.server n).log.length
    rw [hlog]
    exact hch.length_le
  · exact ⟨_, k, hch, le_rfl, le_rfl, by rw [hlog]⟩

end Update

/-! ## Messages -/

section Messages
variable {N T E : Type} [LinearOrder T] {τ : E → T} {zero : T} {ids : Finset N}
  {net net' : Net N T E} {g : Ghost N T E} {base : T → ℕ} {n q v c : N} {t : T} {m : ℕ}

/-- More acknowledgements, of a server in its term or later. -/
theorem NetInv.messages (h : NetInv τ zero ids net g base) (hserver : net'.server = net.server)
    (hacks : net.acks ⊆ net'.acks)
    (hnew : ∀ q t m, (q, t, m) ∈ net'.acks → (q, t, m) ∈ net.acks ∨ (net.server q).term ≤ t)
    (hask : ∀ a ∈ net'.asks, AskOk τ zero ids net' a) (hasks : net.asks ⊆ net'.asks)
    (hcast : ∀ v t c, (v, t, c) ∈ net'.casts → (v, t, c) ∈ net.casts ∨ CastOk τ zero ids net' g base v t c)
    (hcasts : net.casts ⊆ net'.casts)
    (honce : ∀ v t c c', (v, t, c) ∈ net'.casts → (v, t, c') ∈ net'.casts → c = c')
    (hsend : ∀ q s, (q, s) ∈ net'.sends → (q, s) ∈ net.sends ∨ SendOk τ ids net' g base q s)
    (hacked : ∀ q t m, (q, t, m) ∈ net'.acks → (q, t, m) ∈ net.acks ∨ ∀ m' ≤ m, AckedOk ids net' g base q t m') :
    NetInv τ zero ids net' g base := by
  have hg : Grown net net' g g base base := ⟨.refl g, fun _ _ => rfl, hacks⟩
  -- a server that has voted in a term has acknowledged what it will of the earlier ones
  have hold : ∀ v t c, (v, t, c) ∈ net.casts → ∀ t₀ m, t₀ < t → Acked net' g v t₀ m → Acked net g v t₀ m := by
    rintro v t c hv t₀ m hlt (⟨m', hm', hle⟩ | hack)
    · rcases hnew v t₀ m' hm' with hm' | hge
      · exact Or.inl ⟨m', hm', hle⟩
      · exact absurd (hlt.trans_le ((h.cast v t c hv).term_le.trans hge)) (lt_irrefl _)
    · exact Or.inr hack
  refine ⟨?_, ?_, ?_, hask, ?_, honce, ?_, ?_, ?_⟩
  · rw [hserver]
    exact h.log
  · rw [hserver]
    exact h.leads
  · intro q hq
    rw [hserver]
    exact (h.commit q hq).grown hg
  · intro v t c hv
    rcases hcast v t c hv with hv | hok
    · have hok := h.cast v t c hv
      obtain ⟨a, ha, h1, h2, log, hballot, hbehind⟩ := hok.ask
      refine ⟨hok.mem, by rw [hserver]; exact hok.term_le, by rw [hserver]; exact hok.vote, a, hasks ha, h1,
        h2, log, hballot.grown hg h (hold v t c hv), hbehind⟩
    · exact hok
  · intro t l hl
    have hok := h.elected t l hl
    refine ⟨hok.mem, by rw [hserver]; exact hok.term_le, by rw [hserver]; exact hok.leads, hok.log,
      hok.base_le, hok.base_lt, hok.votes.mono ?_⟩
    rintro v - ⟨hv, log, hballot, hup⟩
    exact ⟨hcasts hv, log, hballot.grown hg h (hold v t l hv), hup⟩
  · intro q s hs
    rcases hsend q s hs with hs | hok
    · have hok := h.send q s hs
      exact { hok with within := hok.within.grown hg }
    · exact hok
  · have hkeep : ∀ q t m, Acked net g q t m → AckedOk ids net' g base q t m := by
      intro q t m hack
      have hok := h.acked q t m hack
      exact ⟨hok.mem, hok.elected, by rw [hserver]; exact hok.term_le, hok.le, by rw [hserver]; exact hok.traced⟩
    rintro q t m (⟨m', hm', hle⟩ | hack)
    · rcases hacked q t m' hm' with hm' | hok
      · exact hkeep q t m (Or.inl ⟨m', hm', hle⟩)
      · exact hok m hle
    · exact hkeep q t m (Or.inr hack)

/-- **A candidate asks for votes.** -/
theorem NetInv.asked (h : NetInv τ zero ids net g base) {a : Ask N T} (hc : a.candidate ∈ ids)
    (hterm : a.term = (net.server a.candidate).term)
    (hlength : a.length = (net.server a.candidate).log.length)
    (hlast : a.last = lastTerm τ zero (net.server a.candidate).log) :
    NetInv τ zero ids { net with asks := insert a net.asks } g base := by
  refine h.messages rfl subset_rfl (fun _ _ _ hm => Or.inl hm) ?_ (Set.subset_insert _ _)
    (fun _ _ _ hv => Or.inl hv) subset_rfl h.once (fun _ _ hs => Or.inl hs) fun _ _ _ hm => Or.inl hm
  rintro b (rfl | hb)
  · exact ⟨hc, hterm.le, fun _ _ => ⟨hlength, hlast⟩⟩
  · have hok := h.ask b hb
    exact ⟨hok.mem, hok.term_le, hok.log⟩

/-- **A vote** for a candidate whose log is not behind. -/
theorem NetInv.voted (h : NetInv τ zero ids net g base) {a : Ask N T} (hv : v ∈ ids) (ha : a ∈ net.asks)
    (hterm : (net.server v).term = a.term) (hvote : (net.server v).vote = some a.candidate)
    (hbehind : Behind τ zero (net.server v).log a.last a.length) :
    NetInv τ zero ids { net with casts := insert (v, a.term, a.candidate) net.casts } g base := by
  have hballot : Ballot τ net g base (· ≤ a.term) v a.term (net.server v).log := by
    refine ⟨hterm ▸ h.log v hv, fun t₀ m _ hack => ?_⟩
    exact (h.acked v t₀ m hack).traced.mono fun t' ht' => ht'.trans_eq hterm
  refine h.messages rfl subset_rfl (fun _ _ _ hm => Or.inl hm) (fun b hb => ?_) subset_rfl ?_
    (Set.subset_insert _ _) ?_ (fun _ _ hs => Or.inl hs) fun _ _ _ hm => Or.inl hm
  · have hok := h.ask b hb
    exact ⟨hok.mem, hok.term_le, hok.log⟩
  · rintro v' t c (heq | hv')
    · cases heq
      refine Or.inr ⟨hv, hterm.ge, fun _ => hvote, a, ha, rfl, rfl, _, ⟨hballot.ok, hballot.traced⟩, hbehind⟩
    · exact Or.inl hv'
  · -- an earlier vote in the term is the one that the server has now
    have hsame : ∀ c, (v, a.term, c) ∈ net.casts → c = a.candidate := by
      intro c hc
      have hvote' := (h.cast v a.term c hc).vote hterm
      exact Option.some.inj (hvote'.symm.trans hvote)
    rintro v' t c c' (heq | hc) (heq' | hc')
    · cases heq
      cases heq'
      rfl
    · cases heq
      exact (hsame c' hc').symm
    · cases heq'
      exact hsame c hc
    · exact h.once v' t c c' hc hc'

/-- **A leader sends its log.** -/
theorem NetInv.sent (h : NetInv τ zero ids net g base) (prev : ℕ) (prevTerm : T) (hn : n ∈ ids) (hq : q ∈ ids)
    (hne : q ≠ n) (hleads : (net.server n).mode = .leads) (hprev : prev ≤ (net.server n).log.length)
    (hterm : 0 < prev → ∃ e, (net.server n).log[prev - 1]? = some e ∧ τ e = prevTerm) :
    NetInv τ zero ids { net with sends := insert (q, ⟨(net.server n).term, n, prev, prevTerm,
      (net.server n).log.drop prev, (net.server n).commit⟩) net.sends } g base := by
  obtain ⟨hel, hlog⟩ := h.leads n hn hleads
  have hok := h.elected _ n hel
  obtain ⟨hcommit, hcov⟩ := h.commit n hn
  have hlen : prev + ((net.server n).log.drop prev).length = (net.server n).log.length := by
    rw [List.length_drop]
    omega
  refine h.messages rfl subset_rfl (fun _ _ _ hm => Or.inl hm) (fun a ha => ?_) subset_rfl
    (fun _ _ _ hv => Or.inl hv) subset_rfl h.once ?_ fun _ _ _ hm => Or.inl hm
  · have hok := h.ask a ha
    exact ⟨hok.mem, hok.term_le, hok.log⟩
  · rintro q' s (heq | hs)
    · cases heq
      refine Or.inr ⟨hq, hel, hne, ?_, ?_, ?_, ?_, ?_, ?_⟩
      · rw [hlen, hlog]
        exact hok.base_le
      · rw [hlen, hlog]
      · rw [hlen, ← hlog, List.take_append_drop, List.take_length]
      · rw [← hlog]
        exact hterm
      · rw [hlen]
        exact hcommit
      · rcases hcov with h0 | ⟨t, j, hc, hk, ht, -⟩
        · exact Or.inl h0
        · exact Or.inr ⟨t, j, ⟨hc.elected, hc.pos, hc.last, hc.acked⟩, hk, ht⟩
    · exact Or.inl hs

/-- **An acknowledgement** of entries that the server has. -/
theorem NetInv.acknowledged (h : NetInv τ zero ids net g base) (hq : q ∈ ids)
    (he : (g.elected (net.server q).term).isSome) (hm : m ≤ (net.server q).log.length)
    (htake : (net.server q).log.take m = (g.ledger (net.server q).term).take m) :
    NetInv τ zero ids { net with acks := insert (q, (net.server q).term, m) net.acks } g base := by
  refine h.messages rfl (Set.subset_insert _ _) ?_ (fun a ha => ?_) subset_rfl (fun _ _ _ hv => Or.inl hv)
    subset_rfl h.once (fun _ _ hs => Or.inl hs) ?_
  · rintro q' t m' (heq | hm')
    · cases heq
      exact Or.inr le_rfl
    · exact Or.inl hm'
  · have hok := h.ask a ha
    exact ⟨hok.mem, hok.term_le, hok.log⟩
  · rintro q' t m' (heq | hm')
    · cases heq
      refine Or.inr fun m'' hle => ⟨hq, he, le_rfl, ?_, Or.inl ⟨hle.trans hm, ?_⟩⟩
      · exact hle.trans (le_length_of_take_eq htake.symm hm)
      · have := congrArg (List.take m'') htake
        rwa [List.take_take, List.take_take, Nat.min_eq_left hle] at this
    · exact Or.inl hm'

end Messages

/-! ## Leaders -/

section Leaders
variable {N T E : Type} [LinearOrder T] {τ : E → T} {zero : T} {ids : Finset N}
  {net net' : Net N T E} {g g' : Ghost N T E} {base base' : T → ℕ} {n c : N} {s : Server N T E}

/-- **A change of the history** together with one of a server. -/
theorem NetInv.history [DecidableEq N] (h : NetInv τ zero ids net g base) (hn : n ∈ ids)
    (hg : Grown net (net.set n s) g g' base base')
    (hterm : s.term = (net.server n).term) (hvote : s.vote = (net.server n).vote) (hmode : s.mode = .leads)
    (hlog : s.log = g'.ledger s.term) (hel : g'.elected s.term = some n) (hok : LogOk τ g' s.term s.log)
    (hcommit : Covers τ ids net g s)
    (hother : ∀ t, t ≠ s.term → g'.elected t = g.elected t ∧ g'.ledger t = g.ledger t)
    (hleads : ∀ q ∈ ids, q ≠ n → (net.server q).mode = .leads → (net.server q).term ≠ s.term)
    (hbase : base' s.term ≤ s.log.length) (hbase_lt : ∀ e ∈ s.log.take (base' s.term), τ e < s.term)
    (hvotes : Majority ids fun v => (v, s.term, n) ∈ net.casts ∧ ∃ log,
      Ballot τ net g base (· < s.term) v s.term log ∧ UpToDate τ zero (s.log.take (base' s.term)) log)
    (hgrow : (net.server n).log <+: s.log) :
    NetInv τ zero ids (net.set n s) g' base' := by
  -- what is new of the history is of the term of the server
  have hacked : ∀ {q t m}, Acked (net.set n s) g' q t m → Acked net g q t m ∨ (q = n ∧ t = s.term ∧ m ≤ s.log.length) := by
    rintro q t m (hack | ⟨h1, h2⟩)
    · exact Or.inl (Or.inl hack)
    · by_cases ht : t = s.term
      · subst ht
        rw [hel] at h1
        rw [← hlog] at h2
        exact Or.inr ⟨(Option.some.inj h1).symm, rfl, h2⟩
      · rw [(hother t ht).1] at h1
        rw [(hother t ht).2] at h2
        exact Or.inl (Or.inr ⟨h1, h2⟩)
  have hold : ∀ v t c, (v, t, c) ∈ net.casts → ∀ t₀ m, t₀ < t → Acked (net.set n s) g' v t₀ m →
      Acked net g v t₀ m := by
    intro v t c hv t₀ m hlt hack
    rcases hacked hack with hack | ⟨rfl, rfl, -⟩
    · exact hack
    · have hle := (h.cast v t c hv).term_le
      rw [← hterm] at hle
      exact absurd hlt (not_lt.2 hle)
  have hself := Net.set_self net n s
  have hterms : ∀ q, ((net.set n s).server q).term = (net.server q).term := by
    intro q
    by_cases hqn : q = n
    · rw [hqn, hself, hterm]
    · rw [Net.set_other net s hqn]
  refine ⟨?_, ?_, ?_, ?_, ?_, h.once, ?_, ?_, ?_⟩
  · intro q hq
    by_cases hqn : q = n
    · rw [hqn, hself]
      exact hok
    · rw [Net.set_other net s hqn]
      exact (h.log q hq).later hg.later
  · intro q hq
    by_cases hqn : q = n
    · rw [hqn, hself]
      exact fun _ => ⟨hel, hlog⟩
    · rw [Net.set_other net s hqn]
      intro hq'
      obtain ⟨h1, h2⟩ := hother _ (hleads q hq hqn hq')
      rw [h1, h2]
      exact h.leads q hq hq'
  · intro q hq
    by_cases hqn : q = n
    · rw [hqn, hself]
      exact hcommit.grown hg
    · rw [Net.set_other net s hqn]
      exact (h.commit q hq).grown hg
  · intro a ha
    have hask := h.ask a ha
    refine ⟨hask.mem, by rw [hterms]; exact hask.term_le, ?_⟩
    by_cases hqn : a.candidate = n
    · rw [hqn, hself, hmode]
      intro _ hm
      cases hm
    · rw [Net.set_other net s hqn]
      exact hask.log
  · intro v t c hv
    have hcast := h.cast v t c hv
    obtain ⟨a, ha, h1, h2, log, hballot, hbehind⟩ := hcast.ask
    refine ⟨hcast.mem, by rw [hterms]; exact hcast.term_le, ?_, a, ha, h1, h2, log,
      hballot.grown hg h (hold v t c hv), hbehind⟩
    by_cases hqn : v = n
    · rw [hqn, hself, hterm, hvote, ← hqn]
      exact hcast.vote
    · rw [Net.set_other net s hqn]
      exact hcast.vote
  · intro t l hl
    by_cases ht : t = s.term
    · subst ht
      rw [hel] at hl
      cases hl
      refine ⟨hn, by rw [hself], fun _ => by rw [hself]; exact hmode, hlog ▸ hok, hlog ▸ hbase,
        hlog ▸ hbase_lt, hvotes.mono ?_⟩
      rintro v - ⟨hv, log, hballot, hup⟩
      exact ⟨hv, log, hballot.grown hg h (hold v _ n hv), hlog ▸ hup⟩
    · obtain ⟨h1, h2⟩ := hother t ht
      rw [h1] at hl
      have helected := h.elected t l hl
      have hb : base' t = base t := hg.base t (by rw [hl]; rfl)
      refine ⟨helected.mem, by rw [hterms]; exact helected.term_le, ?_, h2 ▸ helected.log.later hg.later,
        by rw [h2, hb]; exact helected.base_le, by rw [h2, hb]; exact helected.base_lt, helected.votes.mono ?_⟩
      · by_cases hqn : l = n
        · rw [hqn, hself]
          exact fun _ => hmode
        · rw [Net.set_other net s hqn]
          exact helected.leads
      · rintro v - ⟨hv, log, hballot, hup⟩
        exact ⟨hv, log, hballot.grown hg h (hold v t l hv), by rw [h2, hb]; exact hup⟩
  · intro q x hx
    have hsend := h.send q x hx
    have hpre := (hg.later.elected _ _ hsend.elected)
    have hb : base' x.term = base x.term := hg.base x.term (by rw [hsend.elected]; rfl)
    have hlen := hpre.2.length_le
    refine ⟨hsend.mem, hpre.1, hsend.other, hb ▸ hsend.base_le, hsend.le.trans hlen, ?_, ?_, hsend.commit_le,
      hsend.within.grown hg⟩
    · have hle : x.prev ≤ (g.ledger x.term).length := (Nat.le_add_right _ _).trans hsend.le
      rw [take_of_grown hpre.2 hle, take_of_grown hpre.2 hsend.le]
      exact hsend.entries
    · intro hpos
      obtain ⟨e, he, hτ⟩ := hsend.prev hpos
      obtain ⟨rest, hr⟩ := hpre.2
      exact ⟨e, by rw [← hr, List.getElem?_append_left (List.getElem?_eq_some_iff.1 he).1, he], hτ⟩
  · intro q t m hack
    rcases hacked hack with hack | ⟨rfl, rfl, hm⟩
    · have hokq := h.acked q t m hack
      have hpre := hg.later.isSome hokq.elected
      refine ⟨hokq.mem, hpre.1, by rw [hterms]; exact hokq.term_le, hokq.le.trans hpre.2.length_le, ?_⟩
      have htraced := hokq.traced.grown hg hokq.elected hokq.le fun t he => h.base_le he
      rw [hterms]
      by_cases hqn : q = n
      · subst hqn
        rw [hself]
        rcases htraced with ⟨h1, h2⟩ | ⟨t', hlt, hP, he, hp⟩
        · exact Or.inl ⟨h1.trans hgrow.length_le, by rw [take_of_grown hgrow h1]; exact h2⟩
        · exact Or.inr ⟨t', hlt, hP, he, hp.trans hgrow⟩
      · rw [Net.set_other net s hqn]
        exact htraced
    · refine ⟨hn, by rw [hel]; rfl, by rw [hself], hlog ▸ hm, ?_⟩
      rw [hself]
      exact Or.inl ⟨hm, by rw [hlog]⟩

/-- The history after an election. -/
theorem elect_grown [DecidableEq N] (s : Server N T E) (h : g.elected s.term = none) (c : N) :
    Grown net (net.set c s) g (g.elect s.term c s.log) base (Function.update base s.term s.log.length) := by
  refine ⟨elect_later h c s.log, fun t ht => ?_, subset_rfl⟩
  refine Function.update_of_ne ?_ ..
  rintro rfl
  rw [h] at ht
  cases ht

/-- **A candidate wins.** -/
theorem NetInv.won [DecidableEq N] (h : NetInv τ zero ids net g base) (hc : c ∈ ids)
    (hmode : (net.server c).mode = .stands)
    (hvotes : Majority ids fun v => (v, (net.server c).term, c) ∈ net.casts) :
    g.elected (net.server c).term = none ∧
    NetInv τ zero ids (net.set c { net.server c with mode := .leads })
      (g.elect (net.server c).term c (net.server c).log)
      (Function.update base (net.server c).term (net.server c).log.length) := by
  have hnone : g.elected (net.server c).term = none := by
    rcases hel : g.elected (net.server c).term with _ | l
    · rfl
    · have hok := h.elected _ l hel
      obtain ⟨v, -, hv, hv', -⟩ := hvotes.meet hok.votes
      obtain rfl := h.once v _ c l hv hv'
      rw [hok.leads rfl] at hmode
      cases hmode
  obtain ⟨hcommit, hcov⟩ := h.commit c hc
  have hlog := h.log c hc
  refine ⟨hnone, h.history hc (elect_grown { net.server c with mode := .leads } hnone c) rfl rfl rfl ?_ ?_
    (hlog.later (elect_later hnone c _)) ⟨hcommit, hcov⟩ ?_ ?_ ?_ ?_ ?_ (List.prefix_refl _)⟩
  · exact (Function.update_self _ _ g.ledger).symm
  · exact Function.update_self _ _ g.elected
  · intro t ht
    exact ⟨Function.update_of_ne ht _ g.elected, Function.update_of_ne ht _ g.ledger⟩
  · intro q hq hne hleads heq
    obtain ⟨hel, -⟩ := h.leads q hq hleads
    rw [heq, hnone] at hel
    cases hel
  · exact (Function.update_self _ _ base).le
  · simp only [Function.update_self, List.take_length]
    intro e he
    obtain ⟨i, hi⟩ := List.mem_iff_getElem?.1 he
    refine lt_of_le_of_ne (hlog.le e he) fun heq => ?_
    have hel := (hlog.known i e hi).1
    rw [heq, hnone] at hel
    cases hel
  · simp only [Function.update_self, List.take_length]
    refine hvotes.mono fun v _ hv => ⟨hv, ?_⟩
    obtain ⟨a, ha, h1, h2, vlog, hballot, hbehind⟩ := (h.cast v _ c hv).ask
    obtain ⟨hlength, hlast⟩ : a.length = (net.server c).log.length ∧
        a.last = lastTerm τ zero (net.server c).log := by
      have := (h.ask a ha).log
      rw [h2] at this
      exact this h1.symm hmode
    refine ⟨vlog, ⟨hballot.ok, fun t₀ m hlt hack => ?_⟩, by rw [hlength, hlast] at hbehind; exact hbehind⟩
    -- nobody leads the term yet
    rcases hballot.traced t₀ m hlt hack with htr | ⟨t', h1, h2, h3, h4⟩
    · exact Or.inl htr
    · refine Or.inr ⟨t', h1, lt_of_le_of_ne h2 fun heq => ?_, h3, h4⟩
      rw [heq, hnone] at h3
      cases h3

theorem append_grown [DecidableEq N] (t : T) (e : E) (s : Server N T E) (n : N) :
    Grown net (net.set n s) g (g.append t e) base base :=
  ⟨append_later e, fun _ _ => rfl, subset_rfl⟩

/-- **A leader appends.** -/
theorem NetInv.led [DecidableEq N] (h : NetInv τ zero ids net g base) {e : E} (hn : n ∈ ids)
    (hleads : (net.server n).mode = .leads) (he : τ e = (net.server n).term) :
    NetInv τ zero ids (net.set n { net.server n with log := (net.server n).log ++ [e] })
      (g.append (net.server n).term e) base := by
  obtain ⟨hel, hlog⟩ := h.leads n hn hleads
  have hok := h.elected _ n hel
  have hself : (g.append (net.server n).term e).ledger (net.server n).term = (net.server n).log ++ [e] := by
    rw [hlog]
    exact Function.update_self ..
  refine h.history hn (append_grown _ e _ n) rfl rfl hleads hself.symm hel ?_ ?_ ?_ ?_ ?_ ?_ ?_
    (List.prefix_append _ _)
  · show LogOk τ _ (net.server n).term ((net.server n).log ++ [e])
    rw [hlog]
    exact logOk_append hok.log (by rw [hel]; rfl) he
  · obtain ⟨hcommit, hcov⟩ := h.commit n hn
    refine ⟨hcommit.trans (by simp), hcov.imp_right ?_⟩
    rintro ⟨t, j, hc, hk, ht, htake⟩
    exact ⟨t, j, hc, hk, ht, by rw [← htake]; exact List.take_append_of_le_length hcommit⟩
  · intro t ht
    exact ⟨rfl, Function.update_of_ne ht ..⟩
  · intro q hq hne hq' heq
    obtain ⟨hel', -⟩ := h.leads q hq hq'
    rw [heq, hel] at hel'
    exact hne (Option.some.inj hel').symm
  · show base _ ≤ ((net.server n).log ++ [e]).length
    rw [List.length_append, hlog]
    exact hok.base_le.trans (Nat.le_add_right _ _)
  · show ∀ a ∈ ((net.server n).log ++ [e]).take _, _
    rw [hlog, List.take_append_of_le_length hok.base_le]
    exact hok.base_lt
  · show Majority ids fun v => _ ∧ ∃ log, _ ∧ UpToDate τ zero (((net.server n).log ++ [e]).take _) log
    rw [hlog, List.take_append_of_le_length hok.base_le]
    exact hok.votes

/-- The beginning: no server has ever done anything. -/
theorem netInv_start (hserver : ∀ n ∈ ids, ∃ mode, net.server n = ⟨zero, none, [], mode, 0⟩ ∧ mode ≠ .leads)
    (hasks : net.asks = ∅) (hcasts : net.casts = ∅) (hsends : net.sends = ∅) (hacks : net.acks = ∅) :
    NetInv τ zero ids net ⟨fun _ => none, fun _ => [], ∅, ∅⟩ fun _ => 0 := by
  refine ⟨?_, ?_, ?_, ?_, ?_, ?_, fun t l hl => (nomatch hl), ?_, ?_⟩
  · intro n hn
    obtain ⟨mode, hs, -⟩ := hserver n hn
    rw [hs]
    exact ⟨List.Pairwise.nil, fun e he => (nomatch he), fun i e hi => by simp at hi⟩
  · intro n hn hmode
    obtain ⟨mode, hs, hne⟩ := hserver n hn
    rw [hs] at hmode
    exact absurd hmode hne
  · intro n hn
    obtain ⟨mode, hs, -⟩ := hserver n hn
    rw [hs]
    exact ⟨le_rfl, Or.inl rfl⟩
  · rw [hasks]
    exact fun a ha => ha.elim
  · rw [hcasts]
    exact fun v t c hv => hv.elim
  · rw [hcasts]
    exact fun v t c c' hv => hv.elim
  · rw [hsends]
    exact fun q s hs => hs.elim
  · rintro q t m (⟨m', hm', -⟩ | ⟨he, -⟩)
    · rw [hacks] at hm'
      exact hm'.elim
    · cases he

end Leaders

end Raft

end Lib
