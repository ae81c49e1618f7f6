/-
  Elections and logs of the Raft protocol over any network, with servers that
  stop and start again.

  That a term has one leader and that logs match rests on less than what committed
  entries need: on votes that are kept, and on entries that follow a matching one.
  Old entries may arrive after newer ones, and a server may forget that it leads
  (`LogInv.rests`).  `LogInv` is the invariant.
-/
import NutDb.Lib.RaftNet

namespace Lib

namespace Raft

section Defs
variable {N T E : Type} [LinearOrder T] (τ : E → T) (ids : Finset N) (net : Net N T E) (g : Ghost N T E)

/-- The leader of a term: a majority has voted for it, and it does not stand in the term again. -/
structure WonOk (t : T) (l : N) : Prop where
  term_le : t ≤ (net.server l).term
  stands : (net.server l).term = t → (net.server l).mode ≠ .stands
  log : LogOk τ g t (g.ledger t)
  votes : Majority ids fun v => (v, t, l) ∈ net.casts

/-- Entries that were sent are those of the ledger of the term behind an index. -/
structure CopyOk (q : N) (s : Send N T E) : Prop where
  mem : q ∈ ids
  elected : g.elected s.term = some s.leader
  other : q ≠ s.leader
  le : s.prev + s.entries.length ≤ (g.ledger s.term).length
  entries : (g.ledger s.term).take s.prev ++ s.entries = (g.ledger s.term).take (s.prev + s.entries.length)
  prev : 0 < s.prev → ∃ e, (g.ledger s.term)[s.prev - 1]? = some e ∧ τ e = s.prevTerm

/-- **The invariant** of elections and logs. -/
structure LogInv : Prop where
  log : ∀ n ∈ ids, LogOk τ g (net.server n).term (net.server n).log
  leads : ∀ n ∈ ids, (net.server n).mode = .leads →
    g.elected (net.server n).term = some n ∧ (net.server n).log = g.ledger (net.server n).term
  cast : ∀ v t c, (v, t, c) ∈ net.casts →
    t ≤ (net.server v).term ∧ ((net.server v).term = t → (net.server v).vote = some c)
  once : ∀ v t c c', (v, t, c) ∈ net.casts → (v, t, c') ∈ net.casts → c = c'
  elected : ∀ t l, g.elected t = some l → WonOk τ ids net g t l
  send : ∀ q s, (q, s) ∈ net.sends → CopyOk τ ids g q s

/-- What a change of a server has to respect: it does not go back to an earlier term, votes once in a
    term, and neither leads nor stands in the term that it was in, unless it did so. -/
structure Turns (n : N) (s : Server N T E) : Prop where
  term_le : (net.server n).term ≤ s.term
  vote : s.term = (net.server n).term → (net.server n).vote = none ∨ s.vote = (net.server n).vote
  log : LogOk τ g s.term s.log
  leads : s.mode = .leads →
    (net.server n).mode = .leads ∧ s.term = (net.server n).term ∧ s.log = (net.server n).log
  stands : s.mode = .stands → (net.server n).term < s.term ∨
    ((net.server n).mode = .stands ∧ s.term = (net.server n).term)

end Defs

/-! ## Matching logs -/

section Matching
variable {N T E : Type} {τ : E → T} {ids : Finset N} {g g' : Ghost N T E} {q : N} {x : Send N T E}

/-- **Logs match** up to entries of the same term at the same index. -/
theorem Known.matching {log log' : List E} {i : ℕ} {e e' : E} (h : Known τ g log) (h' : Known τ g log')
    (hi : log[i]? = some e) (hi' : log'[i]? = some e') (heq : τ e = τ e') :
    log.take (i + 1) = log'.take (i + 1) := by
  rw [(h i e hi).2, (h' i e' hi').2, heq]

/-- A log that fits the entries of a leader becomes a copy of its ledger. -/
theorem CopyOk.copies (h : CopyOk τ ids g q x) {log : List E} (hlog : Known τ g log)
    (hledger : Known τ g (g.ledger x.term)) (hfits : Fits τ log x) :
    log.take x.prev ++ x.entries = (g.ledger x.term).take (x.prev + x.entries.length) := by
  rw [← h.entries]
  congr 1
  rcases Nat.eq_zero_or_pos x.prev with h0 | hpos
  · rw [h0, List.take_zero, List.take_zero]
  · obtain ⟨e, he, hτ⟩ := hfits.2 hpos
    obtain ⟨e', he', hτ'⟩ := h.prev hpos
    have := hlog.matching hledger he he' (hτ.trans hτ'.symm)
    rwa [Nat.sub_add_cancel hpos] at this

theorem CopyOk.later (h : CopyOk τ ids g q x) (hg : g.Later g') : CopyOk τ ids g' q x := by
  obtain ⟨h1, h2⟩ := hg.elected _ _ h.elected
  have hle : x.prev ≤ (g.ledger x.term).length := (Nat.le_add_right _ _).trans h.le
  refine ⟨h.mem, h1, h.other, h.le.trans h2.length_le, ?_, ?_⟩
  · rw [take_of_grown h2 hle, take_of_grown h2 h.le]
    exact h.entries
  · intro hpos
    obtain ⟨e, he, hτ⟩ := h.prev hpos
    obtain ⟨rest, hr⟩ := h2
    exact ⟨e, by rw [← hr, List.getElem?_append_left (List.getElem?_eq_some_iff.1 he).1, he], hτ⟩

end Matching

/-! ## Changes of a server -/

section Update
variable {N T E : Type} [LinearOrder T] {τ : E → T} {ids : Finset N} {net : Net N T E} {g : Ghost N T E}
  {n : N} {s : Server N T E} {x : Send N T E}

/-- Changing the term, the vote or the mode of a server. -/
theorem LogInv.turns (h : LogInv τ ids net g) (hn : n ∈ ids) (hlog : s.log = (net.server n).log)
    (hterm : ((net.server n).term < s.term ∧ s.mode ≠ .leads) ∨
      (s.term = (net.server n).term ∧ (s.mode = (net.server n).mode ∨ s.mode = .follows) ∧
        ((net.server n).vote = none ∨ s.vote = (net.server n).vote))) :
    Turns τ net g n s := by
  obtain ⟨h1, h2, h3⟩ := h.log n hn
  rcases hterm with ⟨hlt, hmode⟩ | ⟨heq, hmode, hvote⟩
  · refine ⟨hlt.le, fun heq => absurd heq hlt.ne', ?_, fun hm => absurd hm hmode, fun _ => Or.inl hlt⟩
    rw [hlog]
    exact ⟨h1, fun e he => (h2 e he).trans hlt.le, h3⟩
  · refine ⟨heq.ge, fun _ => hvote, ?_, fun hm => ?_, fun hm => ?_⟩
    · rw [hlog, heq]
      exact ⟨h1, h2, h3⟩
    · rcases hmode with hmode | hmode
      · exact ⟨hmode ▸ hm, heq, hlog⟩
      · rw [hmode] at hm
        cases hm
    · rcases hmode with hmode | hmode
      · exact Or.inr ⟨hmode ▸ hm, heq⟩
      · rw [hmode] at hm
        cases hm

/-- **Taking the entries of a leader**, however old they are. -/
theorem LogInv.accepts (h : LogInv τ ids net g) (hs : (n, x) ∈ net.sends)
    (hle : (net.server n).term ≤ x.term) (hfits : Fits τ (net.server n).log x) (hterm : s.term = x.term)
    (hvote : (net.server n).term < x.term ∨ s.vote = (net.server n).vote) (hmode : s.mode = .follows)
    (hlog : s.log = (net.server n).log.take x.prev ++ x.entries) : Turns τ net g n s := by
  have hok := h.send n x hs
  have hledger := (h.elected _ _ hok.elected).log
  refine ⟨hterm ▸ hle, fun heq => ?_, ?_, fun hm => ?_, fun hm => ?_⟩
  · rcases hvote with hlt | hv
    · rw [← hterm, heq] at hlt
      exact absurd hlt (lt_irrefl _)
    · exact Or.inr hv
  · rw [hterm, hlog, hok.copies (h.log n hok.mem).known hledger.known hfits]
    exact hledger.take _
  · rw [hmode] at hm
    cases hm
  · rw [hmode] at hm
    cases hm

variable [DecidableEq N]

/-- **A change of a server.** -/
theorem LogInv.update (h : LogInv τ ids net g) (hn : n ∈ ids) (hm : Turns τ net g n s) :
    LogInv τ ids (net.set n s) g := by
  refine ⟨fun q hq => ?_, fun q hq => ?_, fun v t c hv => ?_, h.once, fun t l hl => ?_, h.send⟩
  · exact Net.set_cases (P := fun _ s => LogOk τ g s.term s.log) q hm.log fun _ => h.log q hq
  · refine Net.set_cases (P := fun q s => s.mode = .leads → g.elected s.term = some q ∧ s.log = g.ledger s.term)
      q (fun hmode => ?_) fun _ => h.leads q hq
    obtain ⟨h1, h2, h3⟩ := hm.leads hmode
    rw [h2, h3]
    exact h.leads n hn h1
  · obtain ⟨h1, h2⟩ := h.cast v t c hv
    refine Net.set_cases (P := fun q s => v = q → t ≤ s.term ∧ (s.term = t → s.vote = some c)) v ?_ ?_ rfl
    · rintro rfl
      refine ⟨h1.trans hm.term_le, fun hst => ?_⟩
      have hsame : (net.server v).term = t := le_antisymm (hst ▸ hm.term_le) h1
      rcases hm.vote (hst.trans hsame.symm) with hnone | heq
      · rw [h2 hsame] at hnone
        cases hnone
      · rw [heq, h2 hsame]
    · exact fun _ _ => ⟨h1, h2⟩
  · have hok := h.elected t l hl
    have hboth : t ≤ ((net.set n s).server l).term ∧
        (((net.set n s).server l).term = t → ((net.set n s).server l).mode ≠ .stands) := by
      refine Net.set_cases (P := fun q s => l = q → t ≤ s.term ∧ (s.term = t → s.mode ≠ .stands)) l ?_ ?_ rfl
      · rintro rfl
        refine ⟨hok.term_le.trans hm.term_le, fun hst hmode => ?_⟩
        rcases hm.stands hmode with hlt | ⟨hstands, heq⟩
        · exact absurd hok.term_le (not_le.2 (hlt.trans_eq hst))
        · exact hok.stands (heq.symm.trans hst) hstands
      · exact fun _ _ => ⟨hok.term_le, hok.stands⟩
    exact ⟨hboth.1, hboth.2, hok.log, hok.votes⟩

/-- **A server starts again** with its term, its vote and its log. -/
theorem LogInv.rests (h : LogInv τ ids net g) (hn : n ∈ ids) (hterm : s.term = (net.server n).term)
    (hvote : s.vote = (net.server n).vote) (hlog : s.log = (net.server n).log) (hmode : s.mode = .follows) :
    LogInv τ ids (net.set n s) g :=
  h.update hn (h.turns hn hlog (Or.inr ⟨hterm, Or.inr hmode, Or.inr hvote⟩))

end Update

/-! ## Messages -/

section Messages
variable {N T E : Type} [LinearOrder T] {τ : E → T} {ids : Finset N} {net net' : Net N T E} {g : Ghost N T E}
  {n q v c : N} {t : T}

/-- **A vote**, of the server that it is the vote of. -/
theorem LogInv.voted (h : LogInv τ ids net g) (hterm : (net.server v).term = t)
    (hvote : (net.server v).vote = some c) :
    LogInv τ ids { net with casts := insert (v, t, c) net.casts } g := by
  -- an earlier vote in the term is the one that the server has now
  have hsame : ∀ c', (v, t, c') ∈ net.casts → c' = c := by
    intro c' hc'
    exact Option.some.inj (((h.cast v t c' hc').2 hterm).symm.trans hvote)
  refine ⟨h.log, h.leads, ?_, ?_, fun t' l hl => ?_, h.send⟩
  · rintro v' t' c' (heq | hc')
    · cases heq
      exact ⟨hterm.ge, fun _ => hvote⟩
    · exact h.cast v' t' c' hc'
  · rintro v' t' c₁ c₂ (heq₁ | h₁) (heq₂ | h₂)
    · cases heq₁
      cases heq₂
      rfl
    · cases heq₁
      exact (hsame c₂ h₂).symm
    · cases heq₂
      exact hsame c₁ h₁
    · exact h.once v' t' c₁ c₂ h₁ h₂
  · have hok := h.elected t' l hl
    exact ⟨hok.term_le, hok.stands, hok.log, hok.votes.mono fun w _ hw => Set.mem_insert_of_mem _ hw⟩

/-- **A leader sends its log.** -/
theorem LogInv.sent (h : LogInv τ ids net g) (prev : ℕ) (prevTerm : T) (commit : ℕ) (hn : n ∈ ids) (hq : q ∈ ids)
    (hne : q ≠ n) (hleads : (net.server n).mode = .leads) (hprev : prev ≤ (net.server n).log.length)
    (hterm : 0 < prev → ∃ e, (net.server n).log[prev - 1]? = some e ∧ τ e = prevTerm) :
    LogInv τ ids { net with sends := insert (q, ⟨(net.server n).term, n, prev, prevTerm,
      (net.server n).log.drop prev, commit⟩) net.sends } g := by
  obtain ⟨hel, hlog⟩ := h.leads n hn hleads
  have hlen : prev + ((net.server n).log.drop prev).length = (net.server n).log.length := by
    rw [List.length_drop]
    omega
  refine ⟨h.log, h.leads, h.cast, h.once, fun t l hl => ?_, ?_⟩
  · have hok := h.elected t l hl
    exact ⟨hok.term_le, hok.stands, hok.log, hok.votes⟩
  · rintro q' s (heq | hs)
    · cases heq
      refine ⟨hq, hel, hne, ?_, ?_, ?_⟩
      · rw [hlen, hlog]
      · rw [hlen, ← hlog, List.take_append_drop, List.take_length]
      · rw [← hlog]
        exact hterm
    · exact h.send q' s hs

/-- Requests for votes and acknowledgements are of no account. -/
theorem LogInv.messages (h : LogInv τ ids net g) (hserver : net'.server = net.server)
    (hcasts : net'.casts = net.casts) (hsends : net'.sends = net.sends) : LogInv τ ids net' g := by
  refine ⟨by rw [hserver]; exact h.log, by rw [hserver]; exact h.leads, by rw [hserver, hcasts]; exact h.cast,
    by rw [hcasts]; exact h.once, fun t l hl => ?_, by rw [hsends]; exact h.send⟩
  have hok := h.elected t l hl
  exact ⟨by rw [hserver]; exact hok.term_le, by rw [hserver]; exact hok.stands, hok.log,
    by rw [hcasts]; exact hok.votes⟩

/-- The beginning: no server has ever done anything. -/
theorem logInv_start {zero : T} (hserver : ∀ n ∈ ids, ∃ mode, net.server n = ⟨zero, none, [], mode, 0⟩ ∧ mode ≠ .leads)
    (hcasts : net.casts = ∅) (hsends : net.sends = ∅) :
    LogInv τ ids net ⟨fun _ => none, fun _ => [], ∅, ∅⟩ := by
  refine ⟨fun n hn => ?_, fun n hn hmode => ?_, ?_, ?_, fun t l hl => (by cases hl), ?_⟩
  · obtain ⟨mode, hs, -⟩ := hserver n hn
    rw [hs]
    exact ⟨List.Pairwise.nil, fun e he => absurd he List.not_mem_nil, fun i e hi => by simp at hi⟩
  · obtain ⟨mode, hs, hne⟩ := hserver n hn
    rw [hs] at hmode
    exact absurd hmode hne
  · rw [hcasts]
    exact fun v t c hv => hv.elim
  · rw [hcasts]
    exact fun v t c c' hv => hv.elim
  · rw [hsends]
    exact fun q s hs => hs.elim

end Messages

/-! ## Leaders -/

section Leaders
variable {N T E : Type} [DecidableEq N] [LinearOrder T] {τ : E → T} {ids : Finset N} {net : Net N T E}
  {g g' : Ghost N T E} {n c : N} {s : Server N T E}

/-- **A change of the history** in the term of a leader, together with one of the leader. -/
theorem LogInv.history (h : LogInv τ ids net g) (hn : n ∈ ids) (hg : g.Later g')
    (hterm : s.term = (net.server n).term) (hvote : s.vote = (net.server n).vote) (hmode : s.mode = .leads)
    (hlog : s.log = g'.ledger s.term) (hel : g'.elected s.term = some n) (hok : LogOk τ g' s.term s.log)
    (hother : ∀ t, t ≠ s.term → g'.elected t = g.elected t ∧ g'.ledger t = g.ledger t)
    (hleads : ∀ q ∈ ids, q ≠ n → (net.server q).mode = .leads → (net.server q).term ≠ s.term)
    (hvotes : Majority ids fun v => (v, s.term, n) ∈ net.casts) :
    LogInv τ ids (net.set n s) g' := by
  refine ⟨fun q hq => ?_, fun q hq => ?_, fun v t c hv => ?_, h.once, fun t l hl => ?_,
    fun q x hx => (h.send q x hx).later hg⟩
  · exact Net.set_cases (P := fun _ s => LogOk τ g' s.term s.log) q hok fun _ => (h.log q hq).later hg
  · refine Net.set_cases (P := fun q s => s.mode = .leads → g'.elected s.term = some q ∧ s.log = g'.ledger s.term)
      q (fun _ => ⟨hel, hlog⟩) fun hne hq' => ?_
    obtain ⟨h1, h2⟩ := hother _ (hleads q hq hne hq')
    rw [h1, h2]
    exact h.leads q hq hq'
  · refine Net.set_cases (P := fun q s => v = q → t ≤ s.term ∧ (s.term = t → s.vote = some c)) v ?_
      (fun _ _ => h.cast v t c hv) rfl
    rintro rfl
    rw [hterm, hvote]
    exact h.cast v t c hv
  · by_cases ht : t = s.term
    · subst ht
      rw [hel] at hl
      cases hl
      refine ⟨by rw [Net.set_self], fun _ => ?_, hlog ▸ hok, hvotes⟩
      rw [Net.set_self, hmode]
      exact fun hm => nomatch hm
    · obtain ⟨h1, h2⟩ := hother t ht
      rw [h1] at hl
      have hwon := h.elected t l hl
      have hboth : t ≤ ((net.set n s).server l).term ∧
          (((net.set n s).server l).term = t → ((net.set n s).server l).mode ≠ .stands) := by
        refine Net.set_cases (P := fun q s => l = q → t ≤ s.term ∧ (s.term = t → s.mode ≠ .stands)) l ?_
          (fun _ _ => ⟨hwon.term_le, hwon.stands⟩) rfl
        rintro rfl
        exact ⟨hterm ▸ hwon.term_le, fun heq => absurd heq.symm ht⟩
      exact ⟨hboth.1, hboth.2, h2 ▸ hwon.log.later hg, hwon.votes⟩

/-- **A candidate wins**, and nobody has led its term before. -/
theorem LogInv.won (h : LogInv τ ids net g) (hc : c ∈ ids) (hmode : (net.server c).mode = .stands)
    (hvotes : Majority ids fun v => (v, (net.server c).term, c) ∈ net.casts) :
    g.elected (net.server c).term = none ∧
    LogInv τ ids (net.set c { net.server c with mode := .leads })
      (g.elect (net.server c).term c (net.server c).log) := by
  have hnone : g.elected (net.server c).term = none := by
    rcases hel : g.elected (net.server c).term with _ | l
    · rfl
    · have hok := h.elected _ l hel
      obtain ⟨v, -, hv, hv'⟩ := hvotes.meet hok.votes
      obtain rfl := h.once v _ c l hv hv'
      exact absurd hmode (hok.stands rfl)
  have hlater := elect_later hnone c (net.server c).log
  refine ⟨hnone, h.history hc hlater rfl rfl rfl ?_ ?_ ((h.log c hc).later hlater) ?_ ?_ hvotes⟩
  · exact (Function.update_self _ _ g.ledger).symm
  · exact Function.update_self _ _ g.elected
  · exact fun t ht => ⟨Function.update_of_ne ht _ g.elected, Function.update_of_ne ht _ g.ledger⟩
  · intro q hq _ hleads heq
    obtain ⟨hel, -⟩ := h.leads q hq hleads
    rw [heq, hnone] at hel
    cases hel

/-- **A leader appends.** -/
theorem LogInv.led (h : LogInv τ ids net g) {e : E} (hn : n ∈ ids) (hleads : (net.server n).mode = .leads)
    (he : τ e = (net.server n).term) :
    LogInv τ ids (net.set n { net.server n with log := (net.server n).log ++ [e] })
      (g.append (net.server n).term e) := by
  obtain ⟨hel, hlog⟩ := h.leads n hn hleads
  have hok := h.elected _ n hel
  have hself : (g.append (net.server n).term e).ledger (net.server n).term = (net.server n).log ++ [e] := by
    rw [hlog]
    exact Function.update_self ..
  refine h.history hn (append_later e) rfl rfl hleads hself.symm hel ?_ ?_ ?_ hok.votes
  · show LogOk τ _ (net.server n).term ((net.server n).log ++ [e])
    rw [hlog]
    exact logOk_append hok.log (by rw [hel]; rfl) he
  · exact fun t ht => ⟨rfl, Function.update_of_ne ht ..⟩
  · intro q hq hne hq' heq
    obtain ⟨hel', -⟩ := h.leads q hq hq'
    rw [heq, hel] at hel'
    exact hne (Option.some.inj hel').symm

end Leaders

end Raft

end Lib
