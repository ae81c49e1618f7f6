/-
  Connections of a cluster.

  The frame of a connection is under way until it is taken.  If it is the request
  of a client, it is then the task of a server, and a task that waits has a
  connection of its own to the peer.  `Linked` says that these connections do not
  mix: no answer is given twice, and the answer that a server waits for is the one
  to its own request.

  `Move` is what a step can do.
-/
import NutDb.Server.Cluster

namespace NutDb.Server

open Lib

/-- The operation that a client asks for. -/
def Request.op : Request → Option Op
  | .put key value => some (.write key value false)
  | .delete key => some (.write key "" true)
  | .get key => some (.read key)
  | _ => none

/-- The connection of an entry. -/
def Entry.conn : Entry → ℕ
  | .invoked conn _ => conn
  | .answered conn _ => conn

/-! ## Requests of servers -/

section Requests
variable {s s' : Server} {phase : Phase} {peer : U64} {request r : Request} {op : Op} {response : Res String}

/-- A server does not ask like a client. -/
theorem op_of_ask (h : phase.ask = some (peer, request)) : request.op = none := by
  cases phase with
  | pinging op todo alive =>
    cases todo with
    | nil => cases h
    | cons p todo => cases h; rfl
  | catching op alive todo =>
    cases todo with
    | nil => cases h
    | cons p todo => cases h; rfl
  | staging key record todo staged =>
    cases todo with
    | nil => cases h
    | cons p todo => cases h; rfl
  | committing key version todo acknowledgements =>
    cases todo with
    | nil => cases h
    | cons p todo => cases h; rfl

/-- If the line of a request is understood, then as that request. -/
theorem eq_of_parse_line (h : Request.parse (utf8 request.line) = .ok r) : r = request := by
  by_cases hempty : "" ∈ request.texts
  · rw [Request.parse_line_of_empty hempty] at h
    cases h
  · rw [Request.parse_line hempty] at h
    cases h
    rfl

theorem stored_ne_run (result : Res Records) : s.stored result ≠ (s', .run op) := by
  intro h
  cases result with
  | ok m => cases h
  | error e => cases h

/-- A request of a client is left for later, and nothing else is. -/
theorem perform_run (h : s.perform request = (s', .run op)) : request.op = some op ∧ s' = s := by
  cases request with
  | repl key version tombstone value => exact absurd h (stored_ne_run _)
  | commit key version => exact absurd h (stored_ne_run _)
  | put key value => cases h; exact ⟨rfl, rfl⟩
  | delete key => cases h; exact ⟨rfl, rfl⟩
  | get key => cases h; exact ⟨rfl, rfl⟩
  | ping => cases h
  | dump => cases h
  | adminBlock peer => cases h
  | adminHeal => cases h

theorem handle_run {frame : Bytes} (h : s.handle frame = (s', .run op)) :
    ∃ r, Request.parse frame = .ok r ∧ r.op = some op ∧ s' = s := by
  unfold handle at h
  cases hp : Request.parse frame with
  | error e =>
    rw [hp] at h
    cases h
  | ok r =>
    rw [hp] at h
    exact ⟨r, rfl, perform_run h⟩

end Requests

namespace Cluster

/-! ## What a step can do -/

/-- A step of the servers `ids`, with what it depends on. -/
inductive Move (ids : List U64) (c : Cluster) : Event → Cluster → Prop
  | invoke (target : U64) (frame : Bytes) : Move ids c (.invoke target frame) (c.invoke target frame)
  | done {e : Envelope} {s : Server} {response : Res String} : e ∈ c.envelopes → e.target ∈ ids →
      c.task e.target = none → (c.server e.target).handle e.frame = (s, .done response) →
      Move ids c (.deliver e.conn) (((c.dropEnvelope e.conn).setServer e.target s).answer e.conn response)
  | begin {e : Envelope} {request : Request} {op : Op} : e ∈ c.envelopes → e.target ∈ ids →
      c.task e.target = none → Request.parse e.frame = .ok request → request.op = some op →
      Move ids c (.deliver e.conn) ((c.dropEnvelope e.conn).setTask e.target
        (some ⟨e.conn, (c.server e.target).start op, none⟩))
  | ask {i peer : U64} {t : Task} {request : Request} : c.task i = some t →
      t.phase.ask = some (peer, request) → t.waiting = none →
      Move ids c (.ask i) ((c.send peer (utf8 request.line)).setTask i (some { t with waiting := some c.next }))
  | receive {i : U64} {t : Task} {q : ℕ} {line : String} : c.task i = some t → t.waiting = some q →
      .answered q line ∈ c.log →
      Move ids c (.receive i) (c.proceed i t ((c.server i).receive (some line) t.phase))
  | timeout {i : U64} {t : Task} {q : ℕ} : c.task i = some t → t.waiting = some q →
      Move ids c (.timeout i) (c.proceed i t ((c.server i).receive none t.phase))
  | advance {i : U64} {t : Task} : c.task i = some t → t.phase.ask = none →
      Move ids c (.advance i) (c.proceed i t ((c.server i).advance t.phase))
  | crash (i : U64) : Move ids c (.crash i) (c.restart i (c.server i))
  | halt {i : U64} {t : Task} {q rows : ℕ} {line : String} : c.task i = some t → t.waiting = some q →
      .answered q line ∈ c.log →
      Move ids c (.halt i rows) (c.restart i (halted (c.server i) rows line t.phase))

section Inversion
variable {ids : List U64} {c c' : Cluster} {event : Event}

theorem mem_of_answerTo {q : ℕ} {line : String} (h : c.answerTo q = some line) :
    .answered q line ∈ c.log := by
  obtain ⟨x, hx, hline⟩ := List.exists_of_findSome?_eq_some h
  cases x with
  | invoked p frame => cases hline
  | answered p line' =>
    dsimp only at hline
    split_ifs at hline with hp
    cases hline
    rwa [hp] at hx

theorem setServer_self (c : Cluster) (i : U64) : c.setServer i (c.server i) = c := by
  rw [setServer, Function.update_eq_self]

/-- **What a step can do.** -/
theorem move_of_step (h : step ids c event = some c') : Move ids c event c' := by
  cases event with
  | invoke target frame =>
    cases h
    exact .invoke target frame
  | deliver conn =>
    obtain ⟨e, hfind, hstep⟩ := Option.bind_eq_some_iff.1 h
    split_ifs at hstep with hcond
    obtain ⟨hids, htask⟩ := hcond
    have hconn : e.conn = conn := by simpa using List.find?_some hfind
    have hmem : e ∈ c.envelopes := List.mem_of_find?_eq_some hfind
    subst hconn
    cases hh : (c.server e.target).handle e.frame with
    | mk s handled =>
      rw [hh] at hstep
      cases handled with
      | done response =>
        cases hstep
        exact .done hmem hids htask hh
      | run op =>
        obtain ⟨r, hparse, hop, rfl⟩ := handle_run hh
        cases hstep
        rw [deliver, show (c.dropEnvelope e.conn).setServer e.target (c.server e.target) =
          c.dropEnvelope e.conn from setServer_self (c.dropEnvelope e.conn) e.target]
        exact .begin hmem hids htask hparse hop
  | ask i =>
    obtain ⟨t, ht, h⟩ := Option.bind_eq_some_iff.1 h
    obtain ⟨⟨peer, request⟩, hask, h⟩ := Option.bind_eq_some_iff.1 h
    dsimp only at h
    split_ifs at h with hw
    cases h
    exact .ask ht hask hw
  | receive i =>
    obtain ⟨t, ht, h⟩ := Option.bind_eq_some_iff.1 h
    obtain ⟨q, hq, h⟩ := Option.bind_eq_some_iff.1 h
    obtain ⟨line, hline, h⟩ := Option.bind_eq_some_iff.1 h
    cases h
    exact .receive ht hq (mem_of_answerTo hline)
  | timeout i =>
    obtain ⟨t, ht, h⟩ := Option.bind_eq_some_iff.1 h
    obtain ⟨q, hq, h⟩ := Option.bind_eq_some_iff.1 h
    cases h
    exact .timeout ht hq
  | advance i =>
    obtain ⟨t, ht, h⟩ := Option.bind_eq_some_iff.1 h
    split_ifs at h with hask
    cases h
    exact .advance ht hask
  | crash i =>
    cases h
    exact .crash i
  | halt i rows =>
    obtain ⟨t, ht, h⟩ := Option.bind_eq_some_iff.1 h
    obtain ⟨q, hq, h⟩ := Option.bind_eq_some_iff.1 h
    obtain ⟨line, hline, h⟩ := Option.bind_eq_some_iff.1 h
    cases h
    exact .halt ht hq (mem_of_answerTo hline)

end Inversion

/-! ## Connections do not mix -/

/-- A client has asked for the operation. -/
def Invoked (c : Cluster) (q : ℕ) (op : Op) : Prop :=
  ∃ frame request, .invoked q frame ∈ c.log ∧ Request.parse frame = .ok request ∧ request.op = some op

/-- A frame under way has not been answered; if a server takes it as a client's, a client sent it. -/
structure Pending (c : Cluster) (e : Envelope) : Prop where
  old : e.conn < c.next
  unanswered : ∀ line, .answered e.conn line ∉ c.log
  client : ∀ {request op}, Request.parse e.frame = .ok request → request.op = some op →
    .invoked e.conn e.frame ∈ c.log

/-- The frame of a task has been taken, and it has not been answered. -/
structure Taken (c : Cluster) (q : ℕ) : Prop where
  old : q < c.next
  unanswered : ∀ line, .answered q line ∉ c.log
  taken : ∀ e ∈ c.envelopes, e.conn ≠ q

/-- A server waits for the answer to the request that comes next in the phase. -/
structure Awaits (c : Cluster) (phase : Phase) (q : ℕ) : Prop where
  old : q < c.next
  other : ∀ {i t}, c.task i = some t → t.conn ≠ q
  asked : ∃ peer request, phase.ask = some (peer, request) ∧
    ∀ e ∈ c.envelopes, e.conn = q → e.target = peer ∧ e.frame = utf8 request.line

/-- Connections do not mix. -/
structure Linked (ids : List U64) (c : Cluster) : Prop where
  old : ∀ x ∈ c.log, x.conn < c.next
  once : ∀ {q frame frame'}, .invoked q frame ∈ c.log → .invoked q frame' ∈ c.log → frame = frame'
  pending : ∀ {e}, e ∈ c.envelopes → Pending c e
  member : ∀ {i t}, c.task i = some t → i ∈ ids
  taken : ∀ {i t}, c.task i = some t → Taken c t.conn
  distinct : ∀ {i j t t'}, c.task i = some t → c.task j = some t' → t.conn = t'.conn → i = j
  awaits : ∀ {i t q}, c.task i = some t → t.waiting = some q → Awaits c t.phase q

section Steps
variable {ids : List U64} {c c' : Cluster} {i j : U64} {t t' : Task} {q : ℕ} {op op' : Op}

theorem task_setTask (c : Cluster) (i : U64) (task : Option Task) (j : U64) :
    (c.setTask i task).task j = if j = i then task else c.task j := Function.update_apply c.task i task j

theorem mem_dropEnvelope {e : Envelope} : e ∈ (c.dropEnvelope q).envelopes ↔ e ∈ c.envelopes ∧ e.conn ≠ q := by
  rw [dropEnvelope, List.mem_filter, decide_eq_true_eq]

theorem mem_answer {response : Res String} {x : Entry} : x ∈ (c.answer q response).log ↔
    x ∈ c.log ∨ ∃ line, answerLine response = some line ∧ x = .answered q line := by
  rw [answer, List.mem_append, List.mem_map]
  refine or_congr_right (exists_congr fun line => ?_)
  rw [Option.mem_toList, eq_comm (b := x)]

theorem task_proceed {p : Server × Next} (h : (c.proceed i t p).task j = some t') :
    j = i ∧ (∃ phase, p.2 = .goOn phase ∧ t' = ⟨t.conn, phase, none⟩) ∨ j ≠ i ∧ c.task j = some t' := by
  obtain ⟨s, next⟩ := p
  cases next with
  | goOn phase =>
    change ((c.setServer i s).setTask i (some ⟨t.conn, phase, none⟩)).task j = some t' at h
    rw [task_setTask] at h
    split_ifs at h with hj
    · exact Or.inl ⟨hj, phase, rfl, (Option.some.inj h).symm⟩
    · exact Or.inr ⟨hj, h⟩
  | finish response =>
    change ((c.setServer i s).setTask i none).task j = some t' at h
    rw [task_setTask] at h
    split_ifs at h with hj
    exact Or.inr ⟨hj, h⟩

theorem mem_proceed {p : Server × Next} {x : Entry} (h : x ∈ (c.proceed i t p).log) : x ∈ c.log ∨
    ∃ response line, p.2 = .finish response ∧ answerLine response = some line ∧ x = .answered t.conn line := by
  obtain ⟨s, next⟩ := p
  cases next with
  | goOn phase => exact Or.inl h
  | finish response =>
    rcases mem_answer.1 h with h | ⟨line, hline, hx⟩
    · exact Or.inl h
    · exact Or.inr ⟨response, line, rfl, hline, hx⟩

theorem log_subset_proceed (c : Cluster) (i : U64) (t : Task) (p : Server × Next) :
    c.log ⊆ (c.proceed i t p).log := by
  obtain ⟨s, next⟩ := p
  cases next with
  | goOn phase => exact fun _ hx => hx
  | finish response => exact List.subset_append_left _ _

theorem envelopes_proceed (c : Cluster) (i : U64) (t : Task) (p : Server × Next) :
    (c.proceed i t p).envelopes = c.envelopes := by
  obtain ⟨s, next⟩ := p
  cases next <;> rfl

theorem server_proceed (c : Cluster) (i : U64) (t : Task) (p : Server × Next) :
    (c.proceed i t p).server = Function.update c.server i p.1 := by
  obtain ⟨s, next⟩ := p
  cases next <;> rfl

theorem task_restart {s : Server} (h : (c.restart i s).task j = some t') : j ≠ i ∧ c.task j = some t' := by
  change ((c.setServer i _).setTask i none).task j = some t' at h
  rw [task_setTask] at h
  split_ifs at h with hj
  exact ⟨hj, h⟩

theorem Invoked.unique (h : Linked ids c) (h1 : Invoked c q op) (h2 : Invoked c q op') : op = op' := by
  obtain ⟨frame, request, hlog, hparse, hop⟩ := h1
  obtain ⟨frame', request', hlog', hparse', hop'⟩ := h2
  rw [h.once hlog hlog', hparse'] at hparse
  cases hparse
  exact Option.some.inj (hop.symm.trans hop')

theorem Linked.start (ids : List U64) : Linked ids (start ids) where
  old := fun _ hx => nomatch hx
  once := fun hx => nomatch hx
  pending := fun he => nomatch he
  member := fun ht => nomatch ht
  taken := fun ht => nomatch ht
  distinct := fun ht => nomatch ht
  awaits := fun ht => nomatch ht

namespace Linked

/-- The servers are not part of it. -/
theorem setServer (h : Linked ids c) (i : U64) (s : Server) : Linked ids (c.setServer i s) :=
  ⟨h.old, h.once, fun he => ⟨(h.pending he).old, (h.pending he).unanswered, (h.pending he).client⟩, h.member,
    fun ht => ⟨(h.taken ht).old, (h.taken ht).unanswered, (h.taken ht).taken⟩, h.distinct,
    fun ht hq => ⟨(h.awaits ht hq).old, (h.awaits ht hq).other, (h.awaits ht hq).asked⟩⟩

/-- A task ends or goes on with the next phase. -/
theorem setTask (h : Linked ids c) {task : Option Task}
    (htask : ∀ t', task = some t' → t'.waiting = none ∧ ∃ t, c.task i = some t ∧ t'.conn = t.conn) :
    Linked ids (c.setTask i task) := by
  have hold : ∀ {j t'}, (c.setTask i task).task j = some t' → ∃ t, c.task j = some t ∧ t'.conn = t.conn ∧
      (t'.waiting = none ∨ t' = t) := by
    intro j t' ht'
    rw [task_setTask] at ht'
    split_ifs at ht' with hji
    · obtain ⟨hw, t, ht, hconn⟩ := htask t' ht'
      exact ⟨t, hji ▸ ht, hconn, Or.inl hw⟩
    · exact ⟨t', ht', rfl, Or.inr rfl⟩
  refine ⟨h.old, h.once, fun he => ⟨(h.pending he).old, (h.pending he).unanswered, (h.pending he).client⟩,
    ?_, ?_, ?_, ?_⟩
  · intro j t' ht'
    obtain ⟨t, ht, -⟩ := hold ht'
    exact h.member ht
  · intro j t' ht'
    obtain ⟨t, ht, hconn, -⟩ := hold ht'
    rw [hconn]
    exact ⟨(h.taken ht).old, (h.taken ht).unanswered, (h.taken ht).taken⟩
  · intro j j' t₁ t₂ ht₁ ht₂ heq
    obtain ⟨t, ht, hconn, -⟩ := hold ht₁
    obtain ⟨t', ht', hconn', -⟩ := hold ht₂
    exact h.distinct ht ht' (by rw [← hconn, ← hconn', heq])
  · intro j t' q ht' hq
    obtain ⟨t, ht, -, hw | rfl⟩ := hold ht'
    · rw [hw] at hq
      cases hq
    · refine ⟨(h.awaits ht hq).old, fun ht'' => ?_, (h.awaits ht hq).asked⟩
      obtain ⟨t₁, ht₁, hconn, -⟩ := hold ht''
      rw [hconn]
      exact (h.awaits ht hq).other ht₁

/-- A frame is taken. -/
theorem dropEnvelope (h : Linked ids c) (q : ℕ) : Linked ids (c.dropEnvelope q) := by
  refine ⟨h.old, h.once, fun he => ?_, h.member, fun ht => ?_, h.distinct, fun ht hq => ?_⟩
  · have hp := h.pending (mem_dropEnvelope.1 he).1
    exact ⟨hp.old, hp.unanswered, hp.client⟩
  · have hk := h.taken ht
    exact ⟨hk.old, hk.unanswered, fun e he => hk.taken e (mem_dropEnvelope.1 he).1⟩
  · obtain ⟨hold, hother, peer, request, hask, hall⟩ := h.awaits ht hq
    exact ⟨hold, hother, peer, request, hask, fun e he => hall e (mem_dropEnvelope.1 he).1⟩

/-- A request that no server works on and that is not under way is answered. -/
theorem answer (h : Linked ids c) {q : ℕ} (hold : q < c.next) (hsent : ∀ e ∈ c.envelopes, e.conn ≠ q)
    (htask : ∀ {i t}, c.task i = some t → t.conn ≠ q) (response : Res String) :
    Linked ids (c.answer q response) := by
  have hun : ∀ {p}, p ≠ q → (∀ line, .answered p line ∉ c.log) →
      ∀ line, .answered p line ∉ (c.answer q response).log := by
    intro p hne hp line hx
    rcases mem_answer.1 hx with hx | ⟨line', -, hx⟩
    · exact hp line hx
    · cases hx
      exact hne rfl
  have hinv : ∀ {p frame}, .invoked p frame ∈ (c.answer q response).log ↔ .invoked p frame ∈ c.log := by
    intro p frame
    rw [mem_answer]
    refine ⟨fun hx => hx.resolve_right ?_, Or.inl⟩
    rintro ⟨line, -, hx⟩
    cases hx
  refine ⟨fun x hx => ?_, fun h1 h2 => h.once (hinv.1 h1) (hinv.1 h2), fun he => ?_, h.member, fun ht => ?_,
    h.distinct, fun ht hq => ⟨(h.awaits ht hq).old, (h.awaits ht hq).other, (h.awaits ht hq).asked⟩⟩
  · rcases mem_answer.1 hx with hx | ⟨line, -, rfl⟩
    · exact h.old x hx
    · exact hold
  · have hp := h.pending he
    exact ⟨hp.old, hun (hsent _ he) hp.unanswered, fun hr hop => hinv.2 (hp.client hr hop)⟩
  · have hk := h.taken ht
    exact ⟨hk.old, hun (htask ht) hk.unanswered, hk.taken⟩

/-- A server begins with the request of a client. -/
theorem begin (h : Linked ids c) {e : Envelope} {request : Request} (he : e ∈ c.envelopes)
    (hids : e.target ∈ ids) (hparse : Request.parse e.frame = .ok request) (hop : request.op = some op)
    (phase : Phase) :
    Linked ids ((c.dropEnvelope e.conn).setTask e.target (some ⟨e.conn, phase, none⟩)) := by
  have hd := h.dropEnvelope e.conn
  have hold : ∀ {j t'}, ((c.dropEnvelope e.conn).setTask e.target (some ⟨e.conn, phase, none⟩)).task j =
      some t' → j = e.target ∧ t' = ⟨e.conn, phase, none⟩ ∨ c.task j = some t' := by
    intro j t' ht'
    rw [task_setTask] at ht'
    split_ifs at ht' with hj
    · exact Or.inl ⟨hj, (Option.some.inj ht').symm⟩
    · exact Or.inr ht'
  have hne : ∀ {j t}, c.task j = some t → t.conn ≠ e.conn := fun ht heq => (h.taken ht).taken e he heq.symm
  refine ⟨hd.old, hd.once, fun he' => ⟨(hd.pending he').old, (hd.pending he').unanswered,
    (hd.pending he').client⟩, ?_, ?_, ?_, ?_⟩
  · intro j t' ht'
    rcases hold ht' with ⟨rfl, -⟩ | ht
    · exact hids
    · exact h.member ht
  · intro j t' ht'
    rcases hold ht' with ⟨-, rfl⟩ | ht
    · exact ⟨(h.pending he).old, (h.pending he).unanswered, fun e' he' => (mem_dropEnvelope.1 he').2⟩
    · exact ⟨(hd.taken ht).old, (hd.taken ht).unanswered, (hd.taken ht).taken⟩
  · intro j j' t₁ t₂ ht₁ ht₂ heq
    rcases hold ht₁ with ⟨rfl, rfl⟩ | ht₁
    · rcases hold ht₂ with ⟨rfl, -⟩ | ht₂
      · rfl
      · exact absurd heq.symm (hne ht₂)
    · rcases hold ht₂ with ⟨rfl, rfl⟩ | ht₂
      · exact absurd heq (hne ht₁)
      · exact h.distinct ht₁ ht₂ heq
  · intro j t' q ht' hq
    rcases hold ht' with ⟨-, rfl⟩ | ht
    · cases hq
    · obtain ⟨hlt, hother, hasked⟩ := hd.awaits ht hq
      refine ⟨hlt, fun ht'' => ?_, hasked⟩
      rcases hold ht'' with ⟨-, rfl⟩ | ht''
      · -- the frame of a server's own request is not taken as a client's
        intro heq
        obtain ⟨peer, r, hask, hall⟩ := (h.awaits ht hq).asked
        rw [(hall e he heq).2] at hparse
        rw [eq_of_parse_line hparse, op_of_ask hask] at hop
        cases hop
      · exact hother ht''

/-- A frame is sent on a new connection. -/
theorem send (h : Linked ids c) (target : U64) (frame : Bytes)
    (hclient : ∀ {request op}, Request.parse frame = .ok request → request.op = some op →
      .invoked c.next frame ∈ c'.log)
    (henv : c'.envelopes = c.envelopes ++ [⟨c.next, target, frame⟩]) (hnext : c'.next = c.next + 1)
    (hlog : ∀ x, x ∈ c'.log → x ∈ c.log ∨ x = .invoked c.next frame) (hsub : c.log ⊆ c'.log)
    (htask : c'.task = c.task) : Linked ids c' := by
  have hun : ∀ {p}, (∀ line, .answered p line ∉ c.log) → ∀ line, .answered p line ∉ c'.log := by
    intro p hp line hx
    rcases hlog _ hx with hx | hx
    · exact hp line hx
    · cases hx
  have hmem : ∀ {e}, e ∈ c'.envelopes → e ∈ c.envelopes ∨ e = ⟨c.next, target, frame⟩ := by
    intro e he
    rw [henv, List.mem_append, List.mem_singleton] at he
    exact he
  refine ⟨fun x hx => ?_, fun {q frame₁ frame₂} h1 h2 => ?_, fun he => ?_, fun ht => h.member (htask ▸ ht), fun ht => ?_,
    fun ht ht' => h.distinct (htask ▸ ht) (htask ▸ ht'), fun ht hq => ?_⟩
  · rcases hlog x hx with hx | rfl
    · exact (h.old x hx).trans (by omega)
    · exact (Nat.lt_succ_self _).trans_eq hnext.symm
  · rcases hlog _ h1 with h1 | h1
    · rcases hlog _ h2 with h2 | h2
      · exact h.once h1 h2
      · cases h2
        exact absurd (h.old _ h1) (lt_irrefl _)
    · rcases hlog _ h2 with h2 | h2
      · cases h1
        exact absurd (h.old _ h2) (lt_irrefl _)
      · cases h1
        cases h2
        rfl
  · rcases hmem he with he | rfl
    · have hp := h.pending he
      exact ⟨hp.old.trans (by omega), hun hp.unanswered, fun hr hop => hsub (hp.client hr hop)⟩
    · exact ⟨(Nat.lt_succ_self _).trans_eq hnext.symm,
        hun fun line hx => absurd (h.old _ hx) (lt_irrefl _), hclient⟩
  · rw [htask] at ht
    have hk := h.taken ht
    refine ⟨hk.old.trans (by omega), hun hk.unanswered, fun e he => ?_⟩
    rcases hmem he with he | rfl
    · exact hk.taken e he
    · exact hk.old.ne'
  · rw [htask] at ht
    obtain ⟨hlt, hother, peer, request, hask, hall⟩ := h.awaits ht hq
    refine ⟨hlt.trans (by omega), fun ht' => hother (htask ▸ ht'), peer, request, hask, fun e he heq => ?_⟩
    rcases hmem he with he | rfl
    · exact hall e he heq
    · exact absurd heq hlt.ne'

/-- A server asks a peer. -/
theorem ask (h : Linked ids c) {peer : U64} {request : Request} (ht : c.task i = some t)
    (hask : t.phase.ask = some (peer, request)) :
    Linked ids ((c.send peer (utf8 request.line)).setTask i (some { t with waiting := some c.next })) := by
  have hs : Linked ids (c.send peer (utf8 request.line)) := by
    refine h.send peer (utf8 request.line) (fun hr hop => ?_) rfl rfl (fun x hx => Or.inl hx) (fun _ hx => hx) rfl
    rw [eq_of_parse_line hr, op_of_ask hask] at hop
    cases hop
  have hold : ∀ {j t'}, ((c.send peer (utf8 request.line)).setTask i
      (some { t with waiting := some c.next })).task j = some t' →
      ∃ t₁, c.task j = some t₁ ∧ t'.conn = t₁.conn ∧ t'.phase = t₁.phase ∧
        (t'.waiting = t₁.waiting ∨ t₁ = t ∧ t'.waiting = some c.next) := by
    intro j t' ht'
    rw [task_setTask] at ht'
    split_ifs at ht' with hj
    · cases ht'
      exact ⟨t, hj ▸ ht, rfl, rfl, Or.inr ⟨rfl, rfl⟩⟩
    · exact ⟨t', ht', rfl, rfl, Or.inl rfl⟩
  refine ⟨hs.old, hs.once, fun he => ⟨(hs.pending he).old, (hs.pending he).unanswered, (hs.pending he).client⟩,
    ?_, ?_, ?_, ?_⟩
  · intro j t' ht'
    obtain ⟨t₁, ht₁, -⟩ := hold ht'
    exact h.member ht₁
  · intro j t' ht'
    obtain ⟨t₁, ht₁, hconn, -⟩ := hold ht'
    rw [hconn]
    exact ⟨(hs.taken ht₁).old, (hs.taken ht₁).unanswered, (hs.taken ht₁).taken⟩
  · intro j j' t' t'' ht' ht'' heq
    obtain ⟨t₁, ht₁, hconn₁, -⟩ := hold ht'
    obtain ⟨t₂, ht₂, hconn₂, -⟩ := hold ht''
    exact h.distinct ht₁ ht₂ (by rw [← hconn₁, ← hconn₂, heq])
  · intro j t' q ht' hq
    obtain ⟨t₁, ht₁, -, hphase, hw | ⟨rfl, hw⟩⟩ := hold ht'
    · obtain ⟨hlt, hother, hasked⟩ := hs.awaits ht₁ (hw ▸ hq)
      refine ⟨hlt, fun ht'' => ?_, hphase ▸ hasked⟩
      obtain ⟨t₂, ht₂, hconn, -⟩ := hold ht''
      rw [hconn]
      exact hother ht₂
    · have hqn : q = c.next := Option.some.inj (hq.symm.trans hw)
      subst hqn
      refine ⟨Nat.lt_succ_self _, fun ht'' => ?_, peer, request, hphase ▸ hask, fun e he heq => ?_⟩
      · obtain ⟨t₂, ht₂, hconn, -⟩ := hold ht''
        rw [hconn]
        exact (h.taken ht₂).old.ne
      · rcases List.mem_append.1 he with he | he
        · exact absurd heq (h.pending he).old.ne
        · rw [List.mem_singleton.1 he]
          exact ⟨rfl, rfl⟩

/-- A server goes on with a task. -/
theorem proceed (h : Linked ids c) (ht : c.task i = some t) (sn : Server × Next) :
    Linked ids (c.proceed i t sn) := by
  obtain ⟨s, next⟩ := sn
  cases next with
  | goOn phase =>
    refine (h.setServer i s).setTask fun t' ht' => ?_
    cases ht'
    exact ⟨rfl, t, ht, rfl⟩
  | finish response =>
    have hk := h.taken ht
    have hnone : Linked ids ((c.setServer i s).setTask i none) :=
      (h.setServer i s).setTask fun t' ht' => nomatch ht'
    refine hnone.answer hk.old hk.taken (fun {j t'} ht' heq => ?_) response
    rw [task_setTask] at ht'
    split_ifs at ht' with hj
    exact hj (h.distinct ht' ht heq)

/-- **Connections never mix.** -/
theorem move {event : Event} (h : Linked ids c) (hmove : Move ids c event c') : Linked ids c' := by
  cases hmove with
  | invoke target frame =>
    refine h.send target frame (fun _ _ => ?_) rfl rfl (fun x hx => ?_) (fun x hx => ?_) rfl
    · exact List.mem_append_right _ (List.mem_singleton.2 rfl)
    · rcases List.mem_append.1 hx with hx | hx
      · exact Or.inl hx
      · exact Or.inr (List.mem_singleton.1 hx)
    · exact List.mem_append_left _ hx
  | @done e s response he hids htask hhandle =>
    refine ((h.dropEnvelope e.conn).setServer e.target s).answer (h.pending he).old
      (fun e' he' => (mem_dropEnvelope.1 he').2) (fun ht heq => ?_) response
    exact (h.taken ht).taken e he heq.symm
  | begin he hids htask hparse hop => exact h.begin he hids hparse hop _
  | ask ht hask hw => exact h.ask ht hask
  | receive ht hq hline => exact h.proceed ht _
  | timeout ht hq => exact h.proceed ht _
  | advance ht hask => exact h.proceed ht _
  | crash i => exact (h.setServer i _).setTask fun t' ht' => nomatch ht'
  | @halt i _ _ _ _ ht hq hline => exact (h.setServer i _).setTask fun t' ht' => nomatch ht'

end Linked

end Steps

/-! ## What a step adds -/

section Additions
variable {ids : List U64} {c c' : Cluster} {event : Event} {q : ℕ} {op : Op}

theorem log_proceed (c : Cluster) (i : U64) (t : Task) (p : Server × Next) : (c.proceed i t p).log = c.log ∨
    ∃ line, (c.proceed i t p).log = c.log ++ [.answered t.conn line] := by
  obtain ⟨s, next⟩ := p
  cases next with
  | goOn phase => exact Or.inl rfl
  | finish response =>
    cases hline : answerLine response with
    | none => exact Or.inl (by simp [proceed, answer, setTask, setServer, hline])
    | some line => exact Or.inr ⟨line, by simp [proceed, answer, setTask, setServer, hline]⟩

/-- A step adds at most one entry. -/
theorem log_move (hmove : Move ids c event c') : c'.log = c.log ∨
    (∃ q line, c'.log = c.log ++ [.answered q line]) ∨
    ∃ target frame, event = .invoke target frame ∧ c'.log = c.log ++ [.invoked c.next frame] := by
  have hproceed : ∀ {i t p}, (c.proceed i t p).log = c.log ∨
      (∃ q line, (c.proceed i t p).log = c.log ++ [.answered q line]) ∨
      ∃ target frame, event = .invoke target frame ∧ (c.proceed i t p).log = c.log ++ [.invoked c.next frame] := by
    intro i t p
    rcases log_proceed c i t p with h | ⟨line, h⟩
    · exact Or.inl h
    · exact Or.inr (Or.inl ⟨t.conn, line, h⟩)
  cases hmove with
  | invoke target frame => exact Or.inr (Or.inr ⟨target, frame, rfl, rfl⟩)
  | @done e s response he hmem hidle hhandle =>
    cases hline : answerLine response with
    | none => exact Or.inl (by simp [answer, dropEnvelope, setServer, hline])
    | some line => exact Or.inr (Or.inl ⟨e.conn, line, by simp [answer, dropEnvelope, setServer, hline]⟩)
  | begin he hmem hidle hparse hop => exact Or.inl rfl
  | ask ht hask hw => exact Or.inl rfl
  | receive ht hq hline => exact hproceed
  | timeout ht hq => exact hproceed
  | advance ht hask => exact hproceed
  | crash i => exact Or.inl rfl
  | halt ht hq hline => exact Or.inl rfl

theorem log_subset_move (hmove : Move ids c event c') : ∃ new, c'.log = c.log ++ new := by
  rcases log_move hmove with h | ⟨q, line, h⟩ | ⟨target, frame, -, h⟩
  · exact ⟨[], by rw [h, List.append_nil]⟩
  · exact ⟨_, h⟩
  · exact ⟨_, h⟩

/-- Where an answer comes from. -/
theorem answered_move (hmove : Move ids c event c') {line : String} (hx : .answered q line ∈ c'.log) :
    .answered q line ∈ c.log ∨ c'.log = c.log ++ [.answered q line] := by
  rcases log_move hmove with h | ⟨q', line', h⟩ | ⟨target, frame, -, h⟩ <;> rw [h] at hx
  · exact Or.inl hx
  · rcases List.mem_append.1 hx with hx | hx
    · exact Or.inl hx
    · cases List.mem_singleton.1 hx
      exact Or.inr h
  · rcases List.mem_append.1 hx with hx | hx
    · exact Or.inl hx
    · cases List.mem_singleton.1 hx

/-- Where a request of a client comes from. -/
theorem invoked_move (hmove : Move ids c event c') (hx : Invoked c' q op) : Invoked c q op ∨
    q = c.next ∧ ∃ target frame request, event = .invoke target frame ∧
      Request.parse frame = .ok request ∧ request.op = some op := by
  obtain ⟨frame, request, hlog, hparse, hop⟩ := hx
  rcases log_move hmove with h | ⟨q', line', h⟩ | ⟨target, frame', hevent, h⟩ <;> rw [h] at hlog
  · exact Or.inl ⟨frame, request, hlog, hparse, hop⟩
  · rcases List.mem_append.1 hlog with hlog | hlog
    · exact Or.inl ⟨frame, request, hlog, hparse, hop⟩
    · cases List.mem_singleton.1 hlog
  · rcases List.mem_append.1 hlog with hlog | hlog
    · exact Or.inl ⟨frame, request, hlog, hparse, hop⟩
    · cases List.mem_singleton.1 hlog
      exact Or.inr ⟨rfl, target, frame, request, hevent, hparse, hop⟩

/-- Where a frame comes from. -/
theorem envelope_move (hmove : Move ids c event c') {e : Envelope} (he : e ∈ c'.envelopes) : e ∈ c.envelopes ∨
    (∃ target, event = .invoke target e.frame) ∨
    ∃ i t peer request, c.task i = some t ∧ t.phase.ask = some (peer, request) ∧ e.frame = utf8 request.line := by
  cases hmove with
  | invoke target frame =>
    rcases List.mem_append.1 he with he | he
    · exact Or.inl he
    · cases List.mem_singleton.1 he
      exact Or.inr (Or.inl ⟨target, rfl⟩)
  | done he' hmem hidle hhandle => exact Or.inl (mem_dropEnvelope.1 he).1
  | begin he' hmem hidle hparse hop => exact Or.inl (mem_dropEnvelope.1 he).1
  | @ask i peer t request ht hask hw =>
    rcases List.mem_append.1 he with he | he
    · exact Or.inl he
    · cases List.mem_singleton.1 he
      exact Or.inr (Or.inr ⟨i, t, peer, request, ht, hask, rfl⟩)
  | receive ht hq hline => exact Or.inl (envelopes_proceed .. ▸ he)
  | timeout ht hq => exact Or.inl (envelopes_proceed .. ▸ he)
  | advance ht hask => exact Or.inl (envelopes_proceed .. ▸ he)
  | crash i => exact Or.inl he
  | halt ht hq hline => exact Or.inl he

end Additions

end Cluster

end NutDb.Server
