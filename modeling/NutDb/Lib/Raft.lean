/-
  The Raft protocol: replicas that vote, lead, and copy logs.

  A replica has an image in memory and one on disk.  They differ when an image
  could not be written; `ok` says which logs can be.  The ghost state records the
  history: who was elected in each term, how far the log of that leader has
  grown (the ledger of the term), and which prefixes of ledgers are committed.

  `Inv` is the invariant.  `Inv.update` says when a change of one replica keeps
  it; the actions of the protocol are instances of it, or change the history
  as well: winning an election, appending as leader, committing, and restarting
  all replicas from disk.  From the invariant follow election safety, log
  matching, leader completeness and the agreement of committed prefixes.
-/
import NutDb.Lib.Quorum
import Mathlib.Data.List.Basic
import Mathlib.Order.Lattice
import Mathlib.Data.Set.Basic

namespace Lib

namespace Raft

variable {N T E : Type}

/-- The durable part of a replica. -/
@[ext]
structure Replica (N T E : Type) where
  term : T
  vote : Option N
  log : List E

/-- The replicas, with their images in memory and on disk. -/
@[ext]
structure World (N T E : Type) where
  mem : N → Replica N T E
  disk : N → Replica N T E
  leads : N → Prop
  commit : N → ℕ

/-- The history of a run. -/
structure Ghost (N T E : Type) where
  elected : T → Option N
  ledger : T → List E
  committed : Set (T × ℕ)
  durable : Set (T × ℕ)

/-- The history goes on: elections stay, ledgers grow, and what is durable stays so. -/
structure Ghost.Later (g g' : Ghost N T E) : Prop where
  elected : ∀ t l, g.elected t = some l → g'.elected t = some l ∧ g.ledger t <+: g'.ledger t
  durable : g.durable ⊆ g'.durable

/-- Change one replica. -/
def World.set [DecidableEq N] (w : World N T E) (n : N) (x y : Replica N T E) (b : Prop) (k : ℕ) :
    World N T E :=
  ⟨Function.update w.mem n x, Function.update w.disk n y, Function.update w.leads n b,
    Function.update w.commit n k⟩

/-- Replacing one replica keeps a majority, if the replica still belongs to it. -/
theorem majority_update [DecidableEq N] {ids : Finset N} {w : World N T E} {n : N} {x y : Replica N T E}
    {b : Prop} {k : ℕ} {P : Replica N T E → Replica N T E → Prop}
    (h : Majority ids fun q => P (w.mem q) (w.disk q)) (hn : P (w.mem n) (w.disk n) → P x y) :
    Majority ids fun q => P ((w.set n x y b k).mem q) ((w.set n x y b k).disk q) := by
  refine h.mono fun q _ hq => ?_
  simp only [World.set, Function.update_apply]
  split_ifs with hqn
  · exact hn (hqn ▸ hq)
  · exact hq

theorem Ghost.Later.refl (g : Ghost N T E) : g.Later g :=
  ⟨fun _ _ h => ⟨h, List.prefix_refl _⟩, subset_rfl⟩

theorem Ghost.Later.trans {g g' g'' : Ghost N T E} (h : g.Later g') (h' : g'.Later g'') : g.Later g'' :=
  ⟨fun t l hl => ⟨(h'.elected t l (h.elected t l hl).1).1,
    (h.elected t l hl).2.trans (h'.elected t l (h.elected t l hl).1).2⟩, h.durable.trans h'.durable⟩

/-- The history after a commit. -/
def Ghost.commit (g : Ghost N T E) (t : T) (i : ℕ) : Ghost N T E :=
  { g with committed := insert (t, i) g.committed }

/-- The history after a commit of entries that are on disk. -/
def Ghost.persist (g : Ghost N T E) (t : T) (i : ℕ) : Ghost N T E :=
  { g with durable := insert (t, i) g.durable }

/-- The history after a restart: what is only in memory is forgotten. -/
def Ghost.restart (g : Ghost N T E) : Ghost N T E := { g with committed := g.durable }

theorem commit_later {g : Ghost N T E} {t : T} (i : ℕ) : g.Later (g.commit t i) :=
  ⟨fun _ _ h => ⟨h, List.prefix_refl _⟩, subset_rfl⟩

/-- Every entry of a log stands where the leader of its term put it. -/
def Known (τ : E → T) (g : Ghost N T E) (log : List E) : Prop :=
  ∀ i e, log[i]? = some e → (g.elected (τ e)).isSome ∧ log.take (i + 1) = (g.ledger (τ e)).take (i + 1)

theorem length_of_take_eq {log ledger : List E} {i : ℕ} {e : E} (hi : log[i]? = some e)
    (h : log.take (i + 1) = ledger.take (i + 1)) : i + 1 ≤ ledger.length := by
  have hlt := (List.getElem?_eq_some_iff.1 hi).1
  have := congrArg List.length h
  rw [List.length_take, List.length_take] at this
  omega

theorem take_of_grown {a b : List E} {i : ℕ} (h : a <+: b) (hi : i ≤ a.length) : b.take i = a.take i := by
  obtain ⟨c, rfl⟩ := h
  exact List.take_append_of_le_length hi

theorem Ghost.Later.isSome {g g' : Ghost N T E} {t : T} (hg : g.Later g') (h : (g.elected t).isSome) :
    (g'.elected t).isSome ∧ g.ledger t <+: g'.ledger t := by
  obtain ⟨l, hl⟩ := Option.isSome_iff_exists.1 h
  obtain ⟨h1, h2⟩ := hg.elected t l hl
  exact ⟨by rw [h1]; rfl, h2⟩

theorem Known.later {τ : E → T} {g g' : Ghost N T E} {log : List E} (hg : g.Later g') (h : Known τ g log) :
    Known τ g' log := by
  intro i e hi
  obtain ⟨h1, h2⟩ := h i e hi
  obtain ⟨h3, h4⟩ := hg.isSome h1
  exact ⟨h3, by rw [h2, take_of_grown h4 (length_of_take_eq hi h2)]⟩

/-- A log is a prefix of the ledger of its last term. -/
theorem Known.eq_take {τ : E → T} {g : Ghost N T E} {log : List E} {e : E} (h : Known τ g log)
    (he : log.getLast? = some e) :
    (g.elected (τ e)).isSome ∧ log = (g.ledger (τ e)).take log.length := by
  rw [List.getLast?_eq_getElem?] at he
  have hpos : log.length - 1 + 1 = log.length := by
    have := (List.getElem?_eq_some_iff.1 he).1
    omega
  obtain ⟨h1, h2⟩ := h _ e he
  rw [hpos, List.take_length] at h2
  exact ⟨h1, h2⟩

variable [LinearOrder T]

/-- A replica that has voted for the leader of a term, or has moved on. -/
def Backs (t : T) (l : N) (x : Replica N T E) : Prop := t < x.term ∨ (x.term = t ∧ x.vote = some l)

/-- A log in a term. -/
structure LogOk (τ : E → T) (g : Ghost N T E) (t : T) (log : List E) : Prop where
  sorted : log.Pairwise fun a b => τ a ≤ τ b
  le : ∀ e ∈ log, τ e ≤ t
  known : Known τ g log

/-- The replica has the first `i` entries of the ledger of a term. -/
def Has (g : Ghost N T E) (t : T) (i : ℕ) (x : Replica N T E) : Prop :=
  t ≤ x.term ∧ x.log.take i = (g.ledger t).take i

/-- A committed prefix: it ends with an entry of the term, a majority has it, and so have all later
    leaders. -/
structure Committed (τ : E → T) (ids : Finset N) (w : World N T E) (g : Ghost N T E) (t : T) (i : ℕ) :
    Prop where
  elected : (g.elected t).isSome
  pos : 0 < i
  last : ∃ e, (g.ledger t)[i - 1]? = some e ∧ τ e = t
  held : Majority ids fun q => Has g t i (w.mem q)
  later : ∀ t', t < t' → (g.elected t').isSome → (g.ledger t').take i = (g.ledger t).take i

/-- A commit index: a prefix of a committed prefix. -/
def Covered (g : Ghost N T E) (k : ℕ) (x : Replica N T E) : Prop :=
  k ≤ x.log.length ∧ (k = 0 ∨ ∃ t j, (t, j) ∈ g.committed ∧ k ≤ j ∧ Has g t k x)

/-- **The invariant.** -/
structure Inv (τ : E → T) (ids : Finset N) (ok : List E → Prop) (w : World N T E) (g : Ghost N T E) :
    Prop where
  ordered : ∀ n ∈ ids, (w.disk n).term ≤ (w.mem n).term
  memLog : ∀ n ∈ ids, LogOk τ g (w.mem n).term (w.mem n).log
  diskLog : ∀ n ∈ ids, LogOk τ g (w.disk n).term (w.disk n).log
  ledgerLog : ∀ t, (g.elected t).isSome → LogOk τ g t (g.ledger t)
  memVote : ∀ n ∈ ids, ∀ c, (w.mem n).vote = some c → c ≠ n →
    c ∈ ids ∧ (w.mem n).term ≤ (w.disk c).term
  diskVote : ∀ n ∈ ids, ∀ c, (w.disk n).vote = some c → c ≠ n →
    c ∈ ids ∧ (w.disk n).term ≤ (w.disk c).term
  elected : ∀ t l, g.elected t = some l → l ∈ ids ∧ t ≤ (w.disk l).term ∧
    Majority ids fun q => Backs t l (w.mem q) ∧ Backs t l (w.disk q)
  leads : ∀ n ∈ ids, w.leads n → g.elected (w.mem n).term = some n ∧
    (w.mem n).log = g.ledger (w.mem n).term
  saved : ∀ n ∈ ids, ok (w.mem n).log → w.disk n = w.mem n
  committed : ∀ t i, (t, i) ∈ g.committed → Committed τ ids w g t i
  durable : ∀ t i, (t, i) ∈ g.durable → (t, i) ∈ g.committed ∧
    Majority ids fun q => Has g t i (w.mem q) ∧ Has g t i (w.disk q)
  commit : ∀ n ∈ ids, Covered g (w.commit n) (w.mem n)

section Update
variable {τ : E → T} {ids : Finset N} {ok : List E → Prop} {w : World N T E} {g : Ghost N T E}
  {n : N} {x y : Replica N T E} {b : Prop} {k : ℕ}

theorem backs_of_lt {t : T} {l : N} {z : Replica N T E} (hlt : z.term < x.term) (h : Backs t l z) :
    Backs t l x := by
  rcases h with h | ⟨h, -⟩
  · exact Or.inl (h.trans hlt)
  · exact Or.inl (h ▸ hlt)

theorem backs_of_vote {t : T} {l : N} {z : Replica N T E} (hterm : x.term = z.term)
    (hvote : z.vote = none ∨ x.vote = z.vote) (h : Backs t l z) : Backs t l x := by
  rcases h with h | ⟨h1, h2⟩
  · exact Or.inl (hterm ▸ h)
  · refine Or.inr ⟨hterm.trans h1, ?_⟩
    rcases hvote with hv | hv
    · rw [hv] at h2; cases h2
    · rw [hv, h2]

theorem Has.congr {t : T} {i : ℕ} {z : Replica N T E} (h : Has g t i z) (hterm : z.term ≤ x.term)
    (hlog : x.log = z.log) : Has g t i x :=
  ⟨h.1.trans hterm, by rw [hlog]; exact h.2⟩

theorem Covered.congr {z : Replica N T E} (h : Covered g k z) (hterm : z.term ≤ x.term)
    (hlog : x.log = z.log) : Covered g k x := by
  obtain ⟨h1, h2⟩ := h
  refine ⟨by rw [hlog]; exact h1, h2.imp_right ?_⟩
  rintro ⟨t, j, hm, hj, hh⟩
  exact ⟨t, j, hm, hj, hh.congr hterm hlog⟩

/-- A committed prefix is in the ledger of every term from its own on. -/
theorem Inv.take_ledger (h : Inv τ ids ok w g) {t t' : T} {i : ℕ} (hc : (t, i) ∈ g.committed)
    (ht : t ≤ t') (he : (g.elected t').isSome) : (g.ledger t').take i = (g.ledger t).take i := by
  rcases ht.lt_or_eq with hlt | rfl
  · exact (h.committed t i hc).later t' hlt he
  · rfl

/-- A replica that takes over the ledger of its new term keeps its commit index. -/
theorem Inv.covered_ledger (h : Inv τ ids ok w g) {z : Replica N T E} (hc : Covered g k z)
    (hterm : z.term ≤ x.term) (he : (g.elected x.term).isSome) (hlog : x.log = g.ledger x.term) :
    Covered g k x := by
  obtain ⟨hlen, rfl | ⟨t, j, hm, hj, ht, htake⟩⟩ := hc
  · exact ⟨Nat.zero_le _, Or.inl rfl⟩
  · have heq : (g.ledger x.term).take k = (g.ledger t).take k := by
      have := congrArg (List.take k) (h.take_ledger hm (ht.trans hterm) he)
      rwa [List.take_take, List.take_take, Nat.min_eq_left hj] at this
    refine ⟨?_, Or.inr ⟨t, j, hm, hj, ht.trans hterm, by rw [hlog]; exact heq⟩⟩
    have hl := congrArg List.length (heq.trans htake.symm)
    rw [List.length_take, List.length_take] at hl
    rw [hlog]
    omega

/-- The ledger of a later term has the committed part of the log of a replica. -/
theorem Inv.take_commit (h : Inv τ ids ok w g) (hn : n ∈ ids) {t : T} (he : (g.elected t).isSome)
    (ht : (w.mem n).term ≤ t) : (g.ledger t).take (w.commit n) = (w.mem n).log.take (w.commit n) := by
  obtain ⟨-, h0 | ⟨t', j, hm, hj, ht', htake⟩⟩ := h.commit n hn
  · rw [h0, List.take_zero, List.take_zero]
  · have := congrArg (List.take (w.commit n)) (h.take_ledger hm (ht'.trans ht) he)
    rw [List.take_take, List.take_take, Nat.min_eq_left hj] at this
    exact this.trans htake.symm

/-- What a change of one replica has to respect. -/
structure Fine (τ : E → T) (ids : Finset N) (ok : List E → Prop) (w : World N T E) (g : Ghost N T E)
    (n : N) (x y : Replica N T E) (b : Prop) (k : ℕ) : Prop where
  term : (w.mem n).term ≤ x.term
  backs : ∀ t l, g.elected t = some l → Backs t l (w.mem n) → Backs t l x
  log : LogOk τ g x.term x.log
  vote : ∀ c, x.vote = some c → c ≠ n → c ∈ ids ∧ x.term ≤ (w.disk c).term
  leads : b → g.elected x.term = some n ∧ x.log = g.ledger x.term
  keeps : ∀ t i, (t, i) ∈ g.committed → Has g t i (w.mem n) → Has g t i x
  covered : Covered g k x
  saved : y = x ∨ (y = w.disk n ∧ ¬ ok x.log)

/-- **Changing the term or the vote** of a replica, with its log unchanged. -/
theorem fine_of_log_eq (h : Inv τ ids ok w g) (hn : n ∈ ids) (hlog : x.log = (w.mem n).log)
    (hterm : (w.mem n).term < x.term ∨
      (x.term = (w.mem n).term ∧ ((w.mem n).vote = none ∨ x.vote = (w.mem n).vote)))
    (hvote : ∀ c, x.vote = some c → c ≠ n → c ∈ ids ∧ x.term ≤ (w.disk c).term)
    (hb : b → w.leads n ∧ x.term = (w.mem n).term)
    (hsaved : y = x ∨ (y = w.disk n ∧ ¬ ok x.log)) :
    Fine τ ids ok w g n x y b (w.commit n) := by
  have hle : (w.mem n).term ≤ x.term := by
    rcases hterm with h | ⟨h, -⟩
    · exact h.le
    · exact h.ge
  obtain ⟨h1, h2, h3⟩ := h.memLog n hn
  refine ⟨hle, fun t l _ hback => ?_, ⟨hlog ▸ h1, fun e he => ?_, hlog ▸ h3⟩, hvote, fun hb' => ?_,
    fun t i _ hh => hh.congr hle hlog, (h.commit n hn).congr hle hlog, hsaved⟩
  · rcases hterm with hlt | ⟨heq, hv⟩
    · exact backs_of_lt hlt hback
    · exact backs_of_vote heq hv hback
  · rw [hlog] at he
    exact (h2 e he).trans hle
  · obtain ⟨hl, heq⟩ := hb hb'
    rw [heq, hlog]
    exact h.leads n hn hl

/-- **Taking over the log of a leader.** -/
theorem fine_of_ledger (h : Inv τ ids ok w g) (hn : n ∈ ids) (he : (g.elected x.term).isSome)
    (hlog : x.log = g.ledger x.term)
    (hterm : ((w.mem n).term < x.term ∧ x.vote = none) ∨
      (x.term = (w.mem n).term ∧ x.vote = (w.mem n).vote))
    (hb : ¬ b) (hk : k = w.commit n ∨ Covered g k x) (hsaved : y = x ∨ (y = w.disk n ∧ ¬ ok x.log)) :
    Fine τ ids ok w g n x y b k := by
  have hle : (w.mem n).term ≤ x.term := by
    rcases hterm with ⟨h, -⟩ | ⟨h, -⟩
    · exact h.le
    · exact h.ge
  refine ⟨hle, fun t l _ hback => ?_, hlog ▸ h.ledgerLog x.term he, fun c hc hcn => ?_,
    fun hb' => absurd hb' hb, fun t i hti hh => ⟨hh.1.trans hle, ?_⟩, ?_, hsaved⟩
  · rcases hterm with ⟨hlt, -⟩ | ⟨heq, hv⟩
    · exact backs_of_lt hlt hback
    · exact backs_of_vote heq (Or.inr hv) hback
  · rcases hterm with ⟨-, hv⟩ | ⟨heq, hv⟩
    · rw [hv] at hc; cases hc
    · rw [heq]
      exact h.memVote n hn c (hv ▸ hc) hcn
  · rw [hlog]
    exact h.take_ledger hti (hh.1.trans hle) he
  · rcases hk with rfl | hk
    · exact h.covered_ledger (h.commit n hn) hle he hlog
    · exact hk

/-- **A change of one replica** that respects all this keeps the invariant. -/
theorem Inv.update [DecidableEq N] (h : Inv τ ids ok w g) (hn : n ∈ ids) (hf : Fine τ ids ok w g n x y b k) :
    Inv τ ids ok (w.set n x y b k) g := by
  have hyterm : (w.disk n).term ≤ y.term := by
    rcases hf.saved with rfl | ⟨rfl, -⟩
    · exact (h.ordered n hn).trans hf.term
    · exact le_refl _
  have hyx : y.term ≤ x.term := by
    rcases hf.saved with rfl | ⟨rfl, -⟩
    · exact le_refl _
    · exact (h.ordered n hn).trans hf.term
  have hdisk : ∀ c, (w.disk c).term ≤ ((w.set n x y b k).disk c).term := by
    intro c
    simp only [World.set, Function.update_apply]
    split_ifs with hc
    · rw [hc]; exact hyterm
    · exact le_refl _
  have hylog : LogOk τ g y.term y.log := by
    rcases hf.saved with rfl | ⟨rfl, -⟩
    · exact hf.log
    · exact h.diskLog n hn
  have hyvote : ∀ c, y.vote = some c → c ≠ n → c ∈ ids ∧ y.term ≤ (w.disk c).term := by
    rcases hf.saved with rfl | ⟨rfl, -⟩
    · exact hf.vote
    · exact h.diskVote n hn
  -- the fields are checked for the changed replica and for the others
  have hcase : ∀ {P : N → Prop}, P n → (∀ q ∈ ids, q ≠ n → P q) → ∀ q ∈ ids, P q := by
    intro P h1 h2 q hq
    by_cases hqn : q = n
    · rw [hqn]; exact h1
    · exact h2 q hq hqn
  refine ⟨hcase ?_ ?_, hcase ?_ ?_, hcase ?_ ?_, h.ledgerLog, hcase ?_ ?_, hcase ?_ ?_, ?_, hcase ?_ ?_,
    hcase ?_ ?_, ?_, ?_, hcase ?_ ?_⟩
  · simpa [World.set] using hyx
  · intro q hq hqn; simpa [World.set, hqn] using h.ordered q hq
  · simpa [World.set] using hf.log
  · intro q hq hqn; simpa [World.set, hqn] using h.memLog q hq
  · simpa [World.set] using hylog
  · intro q hq hqn; simpa [World.set, hqn] using h.diskLog q hq
  · intro c hc hcn
    simp only [World.set, Function.update_self] at hc ⊢
    exact (hf.vote c hc hcn).imp_right fun hle => hle.trans (hdisk c)
  · intro q hq hqn c hc hcq
    simp only [World.set, Function.update_of_ne hqn] at hc ⊢
    exact (h.memVote q hq c hc hcq).imp_right fun hle => hle.trans (hdisk c)
  · intro c hc hcn
    simp only [World.set, Function.update_self] at hc ⊢
    exact (hyvote c hc hcn).imp_right fun hle => hle.trans (hdisk c)
  · intro q hq hqn c hc hcq
    simp only [World.set, Function.update_of_ne hqn] at hc ⊢
    exact (h.diskVote q hq c hc hcq).imp_right fun hle => hle.trans (hdisk c)
  · intro t l hl
    obtain ⟨h1, h2, h3⟩ := h.elected t l hl
    refine ⟨h1, h2.trans (hdisk l), ?_⟩
    refine majority_update (P := fun m d => Backs t l m ∧ Backs t l d) h3 fun ⟨hm, hd⟩ => ?_
    refine ⟨hf.backs t l hl hm, ?_⟩
    rcases hf.saved with rfl | ⟨rfl, -⟩
    · exact hf.backs t l hl hm
    · exact hd
  · intro hb
    simp only [World.set, Function.update_self] at hb ⊢
    exact hf.leads hb
  · intro q hq hqn hb
    simp only [World.set, Function.update_of_ne hqn] at hb ⊢
    exact h.leads q hq hb
  · intro hok
    simp only [World.set, Function.update_self] at hok ⊢
    rcases hf.saved with hyx | ⟨-, hnot⟩
    · exact hyx
    · exact absurd hok hnot
  · intro q hq hqn hok
    simp only [World.set, Function.update_of_ne hqn] at hok ⊢
    exact h.saved q hq hok
  · intro t i hti
    obtain ⟨h1, h2, h3, h4, h5⟩ := h.committed t i hti
    exact ⟨h1, h2, h3, majority_update (P := fun m _ => Has g t i m) h4 (hf.keeps t i hti), h5⟩
  · intro t i hti
    obtain ⟨h1, h2⟩ := h.durable t i hti
    refine ⟨h1, majority_update (P := fun m d => Has g t i m ∧ Has g t i d) h2 fun ⟨hm, hd⟩ => ?_⟩
    refine ⟨hf.keeps t i h1 hm, ?_⟩
    rcases hf.saved with rfl | ⟨rfl, -⟩
    · exact hf.keeps t i h1 hm
    · exact hd
  · simpa [World.set] using hf.covered
  · intro q hq hqn; simpa [World.set, hqn] using h.commit q hq

end Update

/-! ## Changes of the history -/

section Ghost
variable {τ : E → T} {ids : Finset N} {ok : List E → Prop} {w : World N T E} {g g' : Ghost N T E}
  {n l : N} {t : T}

theorem LogOk.later {log : List E} (hg : g.Later g') (h : LogOk τ g t log) : LogOk τ g' t log :=
  ⟨h.sorted, h.le, h.known.later hg⟩

theorem Committed.length_le {i : ℕ} (h : Committed τ ids w g t i) : i ≤ (g.ledger t).length := by
  obtain ⟨e, he, -⟩ := h.last
  have := (List.getElem?_eq_some_iff.1 he).1
  have := h.pos
  omega

/-- **A change of the history** that keeps what is committed. -/
theorem Inv.ghost (h : Inv τ ids ok w g) (hg : g.Later g') (hc : g'.committed = g.committed)
    (hd : g'.durable = g.durable)
    (hledger : ∀ t, (g'.elected t).isSome → LogOk τ g' t (g'.ledger t))
    (helected : ∀ t l, g'.elected t = some l → l ∈ ids ∧ t ≤ (w.disk l).term ∧
      Majority ids fun q => Backs t l (w.mem q) ∧ Backs t l (w.disk q))
    (hleads : ∀ n ∈ ids, w.leads n → (w.mem n).log = g'.ledger (w.mem n).term)
    (hlater : ∀ t i, (t, i) ∈ g.committed → ∀ t', t < t' → (g'.elected t').isSome →
      (g'.ledger t').take i = (g.ledger t).take i) : Inv τ ids ok w g' := by
  -- a committed prefix is the same in the old and the new ledger
  have htake : ∀ {t i k}, (t, i) ∈ g.committed → k ≤ i → (g'.ledger t).take k = (g.ledger t).take k := by
    intro t i k hti hk
    have hcm := h.committed t i hti
    exact take_of_grown (hg.isSome hcm.elected).2 (hk.trans hcm.length_le)
  have hhas : ∀ {t i k x}, (t, i) ∈ g.committed → k ≤ i → Has g t k x → Has g' t k x :=
    fun hti hk hh => ⟨hh.1, hh.2.trans (htake hti hk).symm⟩
  refine ⟨h.ordered, fun n hn => (h.memLog n hn).later hg, fun n hn => (h.diskLog n hn).later hg,
    hledger, h.memVote, h.diskVote, helected, fun n hn hl => ?_, h.saved, fun t i hti => ?_,
    fun t i hti => ?_, fun n hn => ?_⟩
  · exact ⟨(hg.elected _ _ (h.leads n hn hl).1).1, hleads n hn hl⟩
  · rw [hc] at hti
    have hcm := h.committed t i hti
    obtain ⟨e, he, hτ⟩ := hcm.last
    refine ⟨(hg.isSome hcm.elected).1, hcm.pos, ⟨e, ?_, hτ⟩,
      hcm.held.mono fun q _ hq => hhas hti le_rfl hq, fun t' ht he' => ?_⟩
    · obtain ⟨rest, hr⟩ := (hg.isSome hcm.elected).2
      rw [← hr, List.getElem?_append_left (List.getElem?_eq_some_iff.1 he).1, he]
    · rw [htake hti le_rfl]
      exact hlater t i hti t' ht he'
  · rw [hd] at hti
    obtain ⟨h1, h2⟩ := h.durable t i hti
    exact ⟨hc ▸ h1, h2.mono fun q _ hq => ⟨hhas h1 le_rfl hq.1, hhas h1 le_rfl hq.2⟩⟩
  · obtain ⟨h1, h2⟩ := h.commit n hn
    refine ⟨h1, h2.imp_right ?_⟩
    rintro ⟨t, j, hm, hj, hh⟩
    exact ⟨t, j, hc ▸ hm, hj, hhas hm hj hh⟩

/-- The history after an election. -/
def Ghost.elect (g : Ghost N T E) (t : T) (c : N) (log : List E) : Ghost N T E :=
  { g with elected := Function.update g.elected t (some c), ledger := Function.update g.ledger t log }

/-- The history after the leader of a term has appended. -/
def Ghost.append (g : Ghost N T E) (t : T) (e : E) : Ghost N T E :=
  { g with ledger := Function.update g.ledger t (g.ledger t ++ [e]) }

/-- The last term of a log, and its length. -/
def lastTerm (τ : E → T) (zero : T) (log : List E) : T := (log.getLast?.map τ).getD zero

/-- The first log is at least as up to date as the second. -/
def UpToDate (τ : E → T) (zero : T) (a b : List E) : Prop :=
  lastTerm τ zero b < lastTerm τ zero a ∨
    (lastTerm τ zero b = lastTerm τ zero a ∧ b.length ≤ a.length)

theorem elect_later (h : g.elected t = none) (c : N) (log : List E) : g.Later (g.elect t c log) := by
  refine ⟨fun t' l hl => ?_, subset_rfl⟩
  have hne : t' ≠ t := fun heq => by rw [heq, h] at hl; cases hl
  simp only [Ghost.elect, Function.update_of_ne hne]
  exact ⟨hl, List.prefix_refl _⟩

theorem append_later (e : E) : g.Later (g.append t e) := by
  refine ⟨fun t' l hl => ⟨hl, ?_⟩, subset_rfl⟩
  simp only [Ghost.append, Function.update_apply]
  split_ifs with heq
  · rw [heq]; exact List.prefix_append _ _
  · exact List.prefix_refl _

/-- Terms of a log do not exceed its last term. -/
theorem LogOk.le_lastTerm {zero : T} {log : List E} {i : ℕ} {e : E} (h : LogOk τ g t log)
    (hi : log[i]? = some e) : τ e ≤ lastTerm τ zero log := by
  induction log using List.reverseRecOn with
  | nil => simp at hi
  | append_singleton l a _ =>
    have hlast : lastTerm τ zero (l ++ [a]) = τ a := by simp [lastTerm]
    rw [hlast]
    rcases List.mem_append.1 (List.mem_of_getElem? hi) with he | he
    · exact (List.pairwise_append.1 h.sorted).2.2 e he a (by simp)
    · rw [List.mem_singleton.1 he]

/-- A log that is at least as up to date as one with a prefix of the ledger of a term, which ends with
    an entry of the term, has the prefix, if the ledgers of the later terms in it do. -/
theorem take_of_upToDate {zero : T} {i : ℕ} (hzero : ∀ t : T, zero ≤ t) (hpos : 0 < i)
    (hlast : ∃ e, (g.ledger t)[i - 1]? = some e ∧ τ e = t) (hle : ∀ e ∈ g.ledger t, τ e ≤ t)
    {t₁ t₂ : T} {a b : List E} (ha : LogOk τ g t₁ a) (hb : LogOk τ g t₂ b)
    (hlater : ∀ e ∈ a, t < τ e → (g.ledger (τ e)).take i = (g.ledger t).take i)
    (hbi : b.take i = (g.ledger t).take i) (hup : UpToDate τ zero a b) :
    a.take i = (g.ledger t).take i := by
  obtain ⟨e, he, hτ⟩ := hlast
  -- `b` has an entry of the term `t`
  have hbe : b[i - 1]? = some e := by
    have := congrArg (fun l => l[i - 1]?) hbi
    simp only [List.getElem?_take, show i - 1 < i by omega, if_true] at this
    rw [this, he]
  have htb : t ≤ lastTerm τ zero b := hτ ▸ hb.le_lastTerm hbe
  have hib : i ≤ b.length := by
    have := (List.getElem?_eq_some_iff.1 hbe).1
    omega
  -- so `a` is not empty
  obtain ⟨ea, hea⟩ : ∃ ea, a.getLast? = some ea := by
    rcases hl : a.getLast? with _ | ea
    · have ha0 : a = [] := List.getLast?_eq_none_iff.1 hl
      have hzero' : lastTerm τ zero a = zero := by rw [ha0]; rfl
      rcases hup with hup | ⟨-, hup⟩
      · exact absurd (hzero _) (not_le.2 (hzero' ▸ hup))
      · rw [ha0, List.length_nil] at hup
        omega
    · exact ⟨ea, rfl⟩
  have hla : lastTerm τ zero a = τ ea := by simp [lastTerm, hea]
  obtain ⟨hela, heqa⟩ := ha.known.eq_take hea
  rcases hup with hup | ⟨hup, hlen'⟩
  · -- the last term of `a` is later than `t`, and its leader has the prefix
    have hlt : t < τ ea := lt_of_le_of_lt htb (hla ▸ hup)
    have hled := hlater ea (List.mem_of_getLast? hea) hlt
    have hia : i ≤ a.length := by
      by_contra hnot
      have hmem : ea ∈ (g.ledger t).take i := by
        rw [← hled]
        have h1 : ea ∈ a := List.mem_of_getLast? hea
        rw [heqa, ← Nat.min_eq_left (show a.length ≤ i by omega), ← List.take_take] at h1
        exact List.mem_of_mem_take h1
      exact absurd (hle ea (List.mem_of_mem_take hmem)) (not_le.2 hlt)
    rw [heqa, List.take_take, Nat.min_eq_left hia, hled]
  · -- both logs come from the same ledger, and `a` is the longer one
    obtain ⟨eb, heb⟩ : ∃ eb, b.getLast? = some eb := by
      rcases hl : b.getLast? with _ | eb
      · have hb0 : b = [] := List.getLast?_eq_none_iff.1 hl
        rw [hb0, List.length_nil] at hib
        omega
      · exact ⟨eb, rfl⟩
    have hlb : lastTerm τ zero b = τ eb := by simp [lastTerm, heb]
    obtain ⟨-, heqb⟩ := hb.known.eq_take heb
    rw [hla, hlb] at hup
    rw [← hup] at heqa
    rw [heqa, List.take_take, Nat.min_eq_left (by omega), ← hbi, heqb, List.take_take,
      Nat.min_eq_left hib]

/-- **Leader completeness, at the election**: a log that is at least as up to date as that of a
    replica with a committed prefix has the prefix. -/
theorem Inv.take_of_upToDate (h : Inv τ ids ok w g) {zero : T} {i : ℕ} (hzero : ∀ t : T, zero ≤ t)
    (hc : (t, i) ∈ g.committed) {t₁ t₂ : T} {a b : List E} (ha : LogOk τ g t₁ a) (hb : LogOk τ g t₂ b)
    (hbi : b.take i = (g.ledger t).take i) (hup : UpToDate τ zero a b) :
    a.take i = (g.ledger t).take i := by
  have hcm := h.committed t i hc
  refine Raft.take_of_upToDate hzero hcm.pos hcm.last (h.ledgerLog t hcm.elected).le ha hb ?_ hbi hup
  intro e he hlt
  obtain ⟨j, hj⟩ := List.mem_iff_getElem?.1 he
  exact hcm.later (τ e) hlt (ha.known j e hj).1

/-- **Winning an election.**  The candidate has not led the term before, and a majority has voted
    for it, in memory and on disk, with logs that are not more up to date than its own. -/
theorem Inv.win [DecidableEq N] (h : Inv τ ids ok w g) {c : N} {zero : T} (hzero : ∀ t : T, zero ≤ t)
    (hcid : c ∈ ids) (ht : t = (w.mem c).term) (hdisk : t ≤ (w.disk c).term) (hnew : g.elected t ≠ some c)
    (hvotes : Majority ids fun q => ((w.mem q).term = t ∧ (w.mem q).vote = some c) ∧
      Backs t c (w.disk q) ∧ UpToDate τ zero (w.mem c).log (w.mem q).log) :
    g.elected t = none ∧ Inv τ ids ok
      (w.set c (w.mem c) (w.disk c) True (w.commit c)) (g.elect t c (w.mem c).log) := by
  have hnone : g.elected t = none := by
    rcases he : g.elected t with _ | l
    · rfl
    · obtain ⟨-, -, hq⟩ := h.elected t l he
      obtain ⟨v, -, ⟨⟨hvt, hvv⟩, -⟩, hback, -⟩ := hvotes.meet hq
      rcases hback with hlt | ⟨-, hvl⟩
      · rw [hvt] at hlt; exact absurd hlt (lt_irrefl _)
      · rw [hvv] at hvl
        cases hvl
        exact absurd he hnew
  have hlater := elect_later (E := E) hnone c (w.mem c).log
  have hledger : ∀ t', t' ≠ t → (g.elect t c (w.mem c).log).ledger t' = g.ledger t' :=
    fun t' hne => by simp [Ghost.elect, hne]
  have hself : (g.elect t c (w.mem c).log).ledger t = (w.mem c).log := by simp [Ghost.elect]
  have helect : ∀ t', t' ≠ t → (g.elect t c (w.mem c).log).elected t' = g.elected t' :=
    fun t' hne => by simp [Ghost.elect, hne]
  have hinv : Inv τ ids ok w (g.elect t c (w.mem c).log) := by
    refine h.ghost hlater rfl rfl (fun t' he => ?_) (fun t' l hl => ?_) (fun n hn hl => ?_)
      fun t' i hti t'' hlt he => ?_
    · by_cases hne : t' = t
      · rw [hne, hself, ht]
        exact (h.memLog c hcid).later (ht ▸ hlater)
      · rw [hledger t' hne]
        rw [helect t' hne] at he
        exact (h.ledgerLog t' he).later hlater
    · by_cases hne : t' = t
      · subst hne
        have hlc : l = c := by simpa [Ghost.elect] using hl.symm
        rw [hlc]
        exact ⟨hcid, hdisk, hvotes.mono fun q _ hq => ⟨Or.inr hq.1, hq.2.1⟩⟩
      · rw [helect t' hne] at hl
        exact h.elected t' l hl
    · obtain ⟨h1, h2⟩ := h.leads n hn hl
      have hne : (w.mem n).term ≠ t := fun heq => by rw [heq, hnone] at h1; cases h1
      rw [hledger _ hne]
      exact h2
    · by_cases hne : t'' = t
      · subst hne
        rw [hself]
        obtain ⟨v, hv, ⟨-, -, hup⟩, hhas⟩ := hvotes.meet (h.committed t' i hti).held
        exact h.take_of_upToDate hzero hti (h.memLog c hcid) (h.memLog v hv) hhas.2 hup
      · rw [hledger _ hne]
        rw [helect _ hne] at he
        exact (h.committed t' i hti).later t'' hlt he
  refine ⟨hnone, hinv.update hcid ?_⟩
  have hcommit := hinv.commit c hcid
  refine ⟨le_rfl, fun _ _ _ hb => hb, hinv.memLog c hcid, hinv.memVote c hcid, fun _ => ?_,
    fun _ _ _ hh => hh, hcommit, ?_⟩
  · rw [← ht, hself]
    exact ⟨by simp [Ghost.elect], rfl⟩
  · by_cases hok : ok (w.mem c).log
    · exact Or.inl (hinv.saved c hcid hok)
    · exact Or.inr ⟨rfl, hok⟩

/-- An entry of its term goes to the end of a ledger. -/
theorem logOk_append {e : E} (h : LogOk τ g t (g.ledger t)) (ht : (g.elected t).isSome) (he : τ e = t) :
    LogOk τ (g.append t e) t (g.ledger t ++ [e]) := by
  have hold : LogOk τ (g.append t e) t (g.ledger t) := h.later (append_later e)
  have hself : (g.append t e).ledger t = g.ledger t ++ [e] := by simp [Ghost.append]
  refine ⟨?_, fun a ha => ?_, fun i a hi => ?_⟩
  · refine List.pairwise_append.2 ⟨hold.sorted, List.pairwise_singleton _ _, fun a ha b hb => ?_⟩
    rw [List.mem_singleton.1 hb, he]
    exact hold.le a ha
  · rcases List.mem_append.1 ha with ha | ha
    · exact hold.le a ha
    · rw [List.mem_singleton.1 ha, he]
  · rcases Nat.lt_or_ge i (g.ledger t).length with hi' | hi'
    · rw [List.getElem?_append_left hi'] at hi
      rw [List.take_append_of_le_length hi']
      exact hold.known i a hi
    · have hil : i = (g.ledger t).length := by
        have := (List.getElem?_eq_some_iff.1 hi).1
        simp at this
        omega
      subst hil
      have hae : a = e := by simpa using hi.symm
      rw [hae, he, hself]
      exact ⟨ht, rfl⟩

/-- The ledger of a term that nobody leads grows. -/
theorem Inv.extend (h : Inv τ ids ok w g) {e : E} (ht : (g.elected t).isSome) (he : τ e = t)
    (hno : ∀ n ∈ ids, w.leads n → (w.mem n).term ≠ t) : Inv τ ids ok w (g.append t e) := by
  have hlater := append_later (g := g) (t := t) e
  have hother : ∀ t', t' ≠ t → (g.append t e).ledger t' = g.ledger t' :=
    fun t' hne => by simp [Ghost.append, hne]
  have hself : (g.append t e).ledger t = g.ledger t ++ [e] := by simp [Ghost.append]
  refine h.ghost hlater rfl rfl (fun t' he' => ?_) h.elected (fun n hn hl => ?_)
    fun t' i hti t'' hlt he' => ?_
  · have hold := (h.ledgerLog t' he').later hlater
    by_cases hne : t' = t
    · subst hne
      rw [hself]
      exact logOk_append (h.ledgerLog t' he') ht he
    · rw [hother t' hne]
      exact hold
  · rw [hother _ (hno n hn hl)]
    exact (h.leads n hn hl).2
  · have hcm := h.committed t' i hti
    have htake := hcm.later t'' hlt he'
    have hlen : i ≤ (g.ledger t'').length := by
      have := congrArg List.length htake
      rw [List.length_take, List.length_take] at this
      have := hcm.length_le
      omega
    rw [take_of_grown (hlater.isSome he').2 hlen, htake]

/-- **Appending as leader.** -/
theorem Inv.lead [DecidableEq N] (h : Inv τ ids ok w g) {e : E} {x y : Replica N T E} (hl : l ∈ ids)
    (hleads : w.leads l) (he : τ e = (w.mem l).term) (hx : x = { w.mem l with log := (w.mem l).log ++ [e] })
    (hsaved : y = x ∨ (y = w.disk l ∧ ¬ ok x.log)) :
    Inv τ ids ok (w.set l x y True (w.commit l)) (g.append (w.mem l).term e) := by
  obtain ⟨hel, hlog⟩ := h.leads l hl hleads
  -- step down, let the ledger grow, and take it over
  have h₁ : Inv τ ids ok (w.set l (w.mem l) (w.disk l) False (w.commit l)) g := by
    refine h.update hl (fine_of_log_eq h hl rfl (Or.inr ⟨rfl, Or.inr rfl⟩) (h.memVote l hl)
      (fun hb => hb.elim) ?_)
    by_cases hok : ok (w.mem l).log
    · exact Or.inl (h.saved l hl hok)
    · exact Or.inr ⟨rfl, hok⟩
  obtain ⟨w₁, hw₁⟩ : ∃ w₁, w₁ = w.set l (w.mem l) (w.disk l) False (w.commit l) := ⟨_, rfl⟩
  rw [← hw₁] at h₁
  have hmem : w₁.mem = w.mem := by rw [hw₁]; simp [World.set]
  have hdisk : w₁.disk = w.disk := by rw [hw₁]; simp [World.set]
  have hcom : w₁.commit = w.commit := by rw [hw₁]; simp [World.set]
  have hno : ∀ n ∈ ids, w₁.leads n → (w₁.mem n).term ≠ (w.mem l).term := by
    intro n hn hln heq
    have hne : n ≠ l := by
      rintro rfl
      rw [hw₁] at hln
      simp [World.set] at hln
    obtain ⟨h1, -⟩ := h₁.leads n hn hln
    rw [heq, hel] at h1
    cases h1
    exact hne rfl
  have h₂ := h₁.extend (t := (w.mem l).term) (by rw [hel]; rfl) he hno
  have hset : w.set l x y True (w.commit l) = w₁.set l x y True (w₁.commit l) := by
    rw [hw₁]; simp [World.set]
  have hself : (g.append (w.mem l).term e).ledger (w.mem l).term = x.log := by
    rw [hx, hlog]; simp [Ghost.append]
  have hxterm : x.term = (w₁.mem l).term := by rw [hmem, hx]
  rw [hset]
  refine h₂.update hl ⟨hxterm.ge, fun t l' _ hb => ?_, ?_, fun c hc hcn => ?_, fun _ => ?_,
    fun t i hti hh => ?_, ?_, by rw [hdisk]; exact hsaved⟩
  · exact backs_of_vote hxterm (Or.inr (by rw [hmem, hx])) hb
  · have := h₂.ledgerLog (w.mem l).term (by simp only [Ghost.append]; rw [hel]; rfl)
    rw [hself] at this
    rw [hxterm, hmem]
    exact this
  · rw [hxterm]
    refine h₂.memVote l hl c ?_ hcn
    rw [hmem]
    rw [hx] at hc
    exact hc
  · rw [hxterm, hmem]
    exact ⟨hel, hself.symm⟩
  · have hcm := h₂.committed t i hti
    have hlen : i ≤ (w₁.mem l).log.length := by
      have := congrArg List.length hh.2
      rw [List.length_take, List.length_take] at this
      have := hcm.length_le
      omega
    refine ⟨hxterm ▸ hh.1, ?_⟩
    rw [← hh.2, hx, hmem] at *
    exact List.take_append_of_le_length hlen
  · obtain ⟨h1, h2⟩ := h₂.commit l hl
    have htake : ∀ k, k ≤ (w₁.mem l).log.length → x.log.take k = (w₁.mem l).log.take k := by
      intro k hk
      rw [hx]
      rw [hmem] at hk ⊢
      exact List.take_append_of_le_length hk
    refine ⟨h1.trans (by rw [hx, hmem]; simp), h2.imp_right ?_⟩
    rintro ⟨t, j, hm, hj, hh⟩
    exact ⟨t, j, hm, hj, hxterm ▸ hh.1, by rw [htake _ h1]; exact hh.2⟩

/-- **Committing**: a majority is in the term of the leader and has its log up to an entry of that
    term. -/
theorem Inv.commit_index [DecidableEq N] (h : Inv τ ids ok w g) {i : ℕ} {e : E} (hl : l ∈ ids) (hleads : w.leads l)
    (hi : (w.mem l).log[i - 1]? = some e) (hpos : 0 < i) (he : τ e = (w.mem l).term)
    (hheld : Majority ids fun q => (w.mem q).term = (w.mem l).term ∧
      (w.mem q).log.take i = (w.mem l).log.take i) :
    Inv τ ids ok (w.set l (w.mem l) (w.disk l) True i) (g.commit (w.mem l).term i) := by
  obtain ⟨hel, hlog⟩ := h.leads l hl hleads
  have hcm : Committed τ ids w g (w.mem l).term i := by
    refine ⟨by rw [hel]; rfl, hpos, ⟨e, hlog ▸ hi, he⟩,
      hheld.mono fun q _ hq => ⟨hq.1.ge, by rw [hq.2, hlog]⟩, fun t' hlt he' => ?_⟩
    -- no later term has a leader yet: the two majorities meet
    obtain ⟨l', hl'⟩ := Option.isSome_iff_exists.1 he'
    obtain ⟨-, -, hq⟩ := h.elected t' l' hl'
    obtain ⟨v, -, ⟨hvt, -⟩, hback, -⟩ := hheld.meet hq
    rw [Backs, hvt] at hback
    rcases hback with hlt' | ⟨heq, -⟩
    · exact absurd (hlt.trans hlt') (lt_irrefl _)
    · exact absurd hlt (heq ▸ lt_irrefl _)
  have h₁ : Inv τ ids ok w (g.commit (w.mem l).term i) := by
    refine ⟨h.ordered, fun n hn => (h.memLog n hn).later (commit_later i),
      fun n hn => (h.diskLog n hn).later (commit_later i),
      fun t ht => (h.ledgerLog t ht).later (commit_later i), h.memVote, h.diskVote, h.elected, h.leads,
      h.saved, fun t j htj => ?_, fun t j htj => ?_, fun n hn => ?_⟩
    · rcases htj with heq | htj
      · cases heq
        exact ⟨hcm.elected, hcm.pos, hcm.last, hcm.held, hcm.later⟩
      · obtain ⟨h1, h2, h3, h4, h5⟩ := h.committed t j htj
        exact ⟨h1, h2, h3, h4, h5⟩
    · obtain ⟨h1, h2⟩ := h.durable t j htj
      exact ⟨Or.inr h1, h2⟩
    · obtain ⟨h1, h2⟩ := h.commit n hn
      refine ⟨h1, h2.imp_right ?_⟩
      rintro ⟨t, j, hm, hj, hh⟩
      exact ⟨t, j, Or.inr hm, hj, hh⟩
  refine h₁.update hl ⟨le_rfl, fun _ _ _ hb => hb, h₁.memLog l hl, h₁.memVote l hl, fun _ => ⟨hel, hlog⟩,
    fun _ _ _ hh => hh, ⟨?_, Or.inr ⟨_, i, Or.inl rfl, le_rfl, le_rfl, by rw [hlog]; rfl⟩⟩, ?_⟩
  · have := (List.getElem?_eq_some_iff.1 hi).1
    omega
  · by_cases hok : ok (w.mem l).log
    · exact Or.inl (h.saved l hl hok)
    · exact Or.inr ⟨rfl, hok⟩

/-- **A commit is durable** if a majority has it on disk, too. -/
theorem Inv.persist (h : Inv τ ids ok w g) {i : ℕ} (hc : (t, i) ∈ g.committed)
    (hheld : Majority ids fun q => Has g t i (w.mem q) ∧ Has g t i (w.disk q)) :
    Inv τ ids ok w (g.persist t i) ∧ g.Later (g.persist t i) := by
  have hlater : g.Later (g.persist t i) :=
    ⟨fun _ _ h => ⟨h, List.prefix_refl _⟩, Set.subset_insert _ _⟩
  refine ⟨⟨h.ordered, fun n hn => (h.memLog n hn).later hlater, fun n hn => (h.diskLog n hn).later hlater,
    fun t ht => (h.ledgerLog t ht).later hlater, h.memVote, h.diskVote, h.elected, h.leads, h.saved,
    fun t' j htj => ?_, fun t' j htj => ?_, h.commit⟩, hlater⟩
  · obtain ⟨h1, h2, h3, h4, h5⟩ := h.committed t' j htj
    exact ⟨h1, h2, h3, h4, h5⟩
  · rcases htj with heq | htj
    · cases heq
      exact ⟨hc, hheld⟩
    · exact h.durable t' j htj

/-- **Restarting** all replicas from disk. -/
theorem Inv.restart (h : Inv τ ids ok w g) (w' : World N T E) (hmem : ∀ n ∈ ids, w'.mem n = w.disk n)
    (hdisk : ∀ n ∈ ids, w'.disk n = w.disk n) (hleads : ∀ n ∈ ids, ¬ w'.leads n)
    (hcommit : ∀ n ∈ ids, w'.commit n = 0) : Inv τ ids ok w' g.restart ∧ g.Later g.restart := by
  have hlater : g.Later g.restart := ⟨fun _ _ h => ⟨h, List.prefix_refl _⟩, subset_rfl⟩
  have hvote : ∀ n ∈ ids, ∀ c, (w.disk n).vote = some c → c ≠ n →
      c ∈ ids ∧ (w.disk n).term ≤ (w'.disk c).term := by
    intro n hn c hc hcn
    obtain ⟨h1, h2⟩ := h.diskVote n hn c hc hcn
    exact ⟨h1, by rw [hdisk c h1]; exact h2⟩
  refine ⟨⟨fun n hn => by rw [hmem n hn, hdisk n hn], fun n hn => ?_, fun n hn => ?_,
    fun t ht => (h.ledgerLog t ht).later hlater, fun n hn c hc hcn => ?_, fun n hn c hc hcn => ?_,
    fun t l hl => ?_, fun n hn hl => absurd hl (hleads n hn), fun n hn _ => by rw [hmem n hn, hdisk n hn],
    fun t i hti => ?_, fun t i hti => ⟨hti, ?_⟩, fun n hn => ?_⟩, hlater⟩
  · rw [hmem n hn]; exact (h.diskLog n hn).later hlater
  · rw [hdisk n hn]; exact (h.diskLog n hn).later hlater
  · rw [hmem n hn] at hc ⊢; exact hvote n hn c hc hcn
  · rw [hdisk n hn] at hc ⊢; exact hvote n hn c hc hcn
  · obtain ⟨h1, h2, h3⟩ := h.elected t l hl
    refine ⟨h1, by rw [hdisk l h1]; exact h2, h3.mono fun q hq hb => ?_⟩
    rw [hmem q hq, hdisk q hq]
    exact ⟨hb.2, hb.2⟩
  · obtain ⟨h1, h2⟩ := h.durable t i hti
    obtain ⟨h3, h4, h5, -, h6⟩ := h.committed t i h1
    exact ⟨h3, h4, h5, h2.mono fun q hq hh => by rw [hmem q hq]; exact hh.2, h6⟩
  · exact (h.durable t i hti).2.mono fun q hq hh => by rw [hmem q hq, hdisk q hq]; exact ⟨hh.2, hh.2⟩
  · rw [hcommit n hn]
    exact ⟨Nat.zero_le _, Or.inl rfl⟩

/-- The beginning: no replica has ever done anything. -/
theorem inv_start (zero : T) (hmem : ∀ n ∈ ids, w.mem n = ⟨zero, none, []⟩)
    (hdisk : ∀ n ∈ ids, w.disk n = ⟨zero, none, []⟩) (hleads : ∀ n ∈ ids, ¬ w.leads n)
    (hcommit : ∀ n ∈ ids, w.commit n = 0) :
    Inv τ ids ok w ⟨fun _ => none, fun _ => [], ∅, ∅⟩ := by
  have hlog : ∀ {g : Ghost N T E} {t : T}, LogOk τ g t [] :=
    ⟨List.Pairwise.nil, by simp, fun i e h => by simp at h⟩
  refine ⟨fun n hn => by rw [hmem n hn, hdisk n hn], fun n hn => by rw [hmem n hn]; exact hlog,
    fun n hn => by rw [hdisk n hn]; exact hlog, fun t ht => (nomatch ht),
    fun n hn c hc => ?_, fun n hn c hc => ?_, fun t l hl => (nomatch hl), fun n hn hl => absurd hl (hleads n hn),
    fun n hn _ => by rw [hmem n hn, hdisk n hn], fun t i h => (nomatch h), fun t i h => (nomatch h),
    fun n hn => ⟨by rw [hcommit n hn]; exact Nat.zero_le _, Or.inl (hcommit n hn)⟩⟩
  · rw [hmem n hn] at hc; cases hc
  · rw [hdisk n hn] at hc; cases hc

end Ghost

/-! ## Safety -/

section Safety
variable {τ : E → T} {ids : Finset N} {ok : List E → Prop} {w : World N T E} {g : Ghost N T E}

/-- **Log matching**: logs with an entry of the same term at the same index are the same up to it. -/
theorem Inv.matching (h : Inv τ ids ok w g) {n m : N} (hn : n ∈ ids) (hm : m ∈ ids) {i : ℕ} {a b : E}
    (ha : (w.mem n).log[i]? = some a) (hb : (w.mem m).log[i]? = some b) (hτ : τ a = τ b) :
    (w.mem n).log.take (i + 1) = (w.mem m).log.take (i + 1) := by
  rw [((h.memLog n hn).known i a ha).2, ((h.memLog m hm).known i b hb).2, hτ]

/-- **Leader completeness**: a leader has what was committed in its term or before. -/
theorem Inv.complete (h : Inv τ ids ok w g) {n : N} (hn : n ∈ ids) (hl : w.leads n) {t : T} {i : ℕ}
    (hc : (t, i) ∈ g.committed) (ht : t ≤ (w.mem n).term) :
    (w.mem n).log.take i = (g.ledger t).take i := by
  obtain ⟨h1, h2⟩ := h.leads n hn hl
  rw [h2]
  exact h.take_ledger hc ht (by rw [h1]; rfl)

/-- Two committed prefixes agree. -/
theorem Inv.agree (h : Inv τ ids ok w g) {t t' : T} {i j k : ℕ} (hi : (t, i) ∈ g.committed)
    (hj : (t', j) ∈ g.committed) (hki : k ≤ i) (hkj : k ≤ j) :
    (g.ledger t).take k = (g.ledger t').take k := by
  have hcut : ∀ {a b : List E} {i}, k ≤ i → a.take i = b.take i → a.take k = b.take k := by
    intro a b i hk hab
    have := congrArg (List.take k) hab
    rwa [List.take_take, List.take_take, Nat.min_eq_left hk] at this
  rcases le_total t t' with hle | hle
  · exact hcut hki (h.take_ledger hi hle (h.committed t' j hj).elected).symm
  · exact hcut hkj (h.take_ledger hj hle (h.committed t i hi).elected)

/-- **State machine safety**: the committed parts of two logs are prefixes of each other. -/
theorem Inv.commit_agree (h : Inv τ ids ok w g) {n m : N} (hn : n ∈ ids) (hm : m ∈ ids) {a b : ℕ}
    (ha : a ≤ w.commit n) (hb : b ≤ w.commit m) (hab : a ≤ b) :
    (w.mem n).log.take a = (w.mem m).log.take a := by
  obtain ⟨-, hcn⟩ := h.commit n hn
  obtain ⟨-, hcm⟩ := h.commit m hm
  rcases hcn with h0 | ⟨t, j, h1, h2, -, h3⟩
  · obtain rfl : a = 0 := by omega
    simp
  rcases hcm with h0 | ⟨t', j', h1', h2', -, h3'⟩
  · obtain rfl : a = 0 := by omega
    simp
  have hcut : ∀ {x y : List E} {k}, a ≤ k → x.take k = y.take k → x.take a = y.take a := by
    intro x y k hk hxy
    have := congrArg (List.take a) hxy
    rwa [List.take_take, List.take_take, Nat.min_eq_left hk] at this
  calc (w.mem n).log.take a = (g.ledger t).take a := hcut ha h3
    _ = (g.ledger t').take a := h.agree h1 h1' (by omega) (by omega)
    _ = (w.mem m).log.take a := (hcut (hab.trans hb) h3').symm

end Safety

end Raft

end Lib
