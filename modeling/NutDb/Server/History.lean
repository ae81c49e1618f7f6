/-
  Histories of clients (`ClusterClient` of `src/client.rs`, and
  `src/linearizability.rs`).

  The calls of any number of clients on one key, as a test of the cluster records
  them: when a call began and ended, and what it returned.  The requests of the
  calls are served in rounds.  `Recorded` ties both: a request that the client has
  made is served by one round while the call goes on, or not at all, and its
  reply is what the server has answered; only the reply on which a client gives up
  may be lost.

  Then the checker accepts the history (`recorded_linearizable`).
-/
import NutDb.Linearizability
import NutDb.Server.Client
import NutDb.Server.Quorum
import NutDb.Server.Register

namespace NutDb.Server

open Lib Linearizability

/-! ## Calls -/

/-- A call of a client on a key, and what a test records of it. -/
structure Call (A : Type) where
  client : ClusterClient A
  replies : Replies
  entry : HistoryEntry

namespace Call
variable {A : Type}

/-- The outcome of a call, and the requests made. -/
def run (key : String) (call : Call A) : Outcome × Progress A :=
  match call.entry.operation with
  | .write value =>
    match (call.client.put call.replies key value).run {} with
    | (.ok (), p) => (.ok none, p)
    | (.error _, p) => (.info, p)
  | .read =>
    match (call.client.get call.replies key).run {} with
    | (.ok value, p) => (.ok value, p)
    | (.error _, p) => (.info, p)

/-- The request that the call makes. -/
def request (key : String) (call : Call A) : Request :=
  match call.entry.operation with
  | .write value => .put key value
  | .read => .get key

/-- The requests made, in their order. -/
def asked (key : String) (call : Call A) : List (A × String) := (call.run key).2.asked

end Call

/-- What a client may get for an answer. -/
def Delivered (response : Res String) (reply : Except IoError String) : Prop :=
  match (answerLine response).filter fun line => decide ((utf8 line).length ≤ MAX_FRAME) with
  | some line => reply = .ok line
  | none => ∃ e, reply = .error e

/-- The calls of clients on a key, whose requests are served in rounds: the `j`-th round serves the
    `n`-th request of the call `c` if `source j` is `(c, n)`. -/
structure Recorded {A : Type} (host : A → U64) (key : String) (calls : List (Call A))
    (rounds : List (RoundEvent × Res String)) (clock : ℕ → ℕ) (source : ℕ → Option (ℕ × ℕ)) : Prop where
  served : ∀ j c n, source j = some (c, n) → ∃ call, calls[c]? = some call ∧
    call.entry.invoke.val ≤ clock j ∧ clock j ≤ call.entry.complete.val ∧
    ∃ a line up response, (call.asked key)[n]? = some (a, line) ∧
      rounds[j]? = some (.request (host a) up (utf8 line), response) ∧
      (Delivered response (call.replies n) ∨ n + 1 = (call.asked key).length ∧ ∃ e, call.replies n = .error e)
  once : ∀ j j' p, source j = some p → source j' = some p → j = j'
  failed : ∀ c call n, calls[c]? = some call → n < (call.asked key).length → (∀ j, source j ≠ some (c, n)) →
    ∃ e, call.replies n = .error e
  outcome : ∀ call ∈ calls, call.entry.outcome = (call.run key).1
  writes : ∀ j i up frame response, rounds[j]? = some (.request i up frame, response) →
    (∃ value, Request.parse frame = .ok (.put key value)) ∨ Request.parse frame = .ok (.delete key) →
    ∃ p, source j = some p

/-! ## The requests of a call -/

namespace ClusterClient

/-- What a client does from `p` on, with `result` for an answer: it makes the same request again and
    again, until it gets an answer, which is the reply to the last request. -/
structure Asks {A α : Type} (result : String → α) (replies : Replies) (line : String) (p : Progress A)
    (r : Res α × Progress A) : Prop where
  grows : ∃ more, r.2.asked = p.asked ++ more ∧ ∀ q ∈ more, q.2 = line
  stops : ∀ n response, p.asked.length ≤ n → n < r.2.asked.length → Answers (replies n) response →
    n + 1 = r.2.asked.length ∧ r.1 = .ok (result response)
  last : ∀ response, r.1 = .ok (result response) → ∃ n, n + 1 = r.2.asked.length ∧ Answers (replies n) response

section Asks
variable {A α β : Type} {result : String → α} {result' : String → β} {replies : Replies} {line : String}
  {p p₁ : Progress A} {r : Res α × Progress A} {c : ClusterClient A}

/-- Nothing is asked. -/
theorem asks_none {x : Res α} (hx : ∀ response, x ≠ .ok (result response)) (hasked : p₁.asked = p.asked) :
    Asks result replies line p (x, p₁) where
  grows := ⟨[], by rw [List.append_nil, hasked], fun _ h => nomatch h⟩
  stops _ _ hle hlt := absurd hlt (Nat.not_lt.2 (hasked ▸ hle))
  last response h := absurd h (hx response)

theorem length_call (p : Progress A) (a : A) (line : String) :
    (Progress.call p a line).asked.length = p.asked.length + 1 := by
  rw [Progress.call, List.length_append, List.length_singleton]

/-- **The last request**: it is answered. -/
theorem asks_answered {a : A} {response : String} (hinj : Function.Injective result)
    (h : Answers (replies p.asked.length) response) :
    Asks result replies line p (.ok (result response), Progress.call p a line) where
  grows := ⟨[(a, line)], rfl, fun q hq => by rw [List.mem_singleton.1 hq]⟩
  stops n response' hle hlt hanswer := by
    rw [length_call] at hlt ⊢
    obtain rfl : n = p.asked.length := by omega
    obtain rfl := Except.ok.inj (hanswer.1.symm.trans h.1)
    exact ⟨rfl, rfl⟩
  last response' hr := by
    obtain rfl := hinj (Except.ok.inj hr)
    exact ⟨p.asked.length, (length_call p a line).symm, h⟩

/-- **A request that is not answered**, and more of them. -/
theorem Asks.call {a : A} (h : Asks result replies line (Progress.call p a line) r)
    (hnot : ∀ response, ¬ Answers (replies p.asked.length) response) : Asks result replies line p r where
  grows := by
    obtain ⟨more, hmore, hlines⟩ := h.grows
    refine ⟨(a, line) :: more, ?_, List.forall_mem_cons.2 ⟨rfl, hlines⟩⟩
    rw [hmore, Progress.call, List.append_assoc, List.singleton_append]
  stops n response hle hlt hanswer := by
    rcases hle.eq_or_lt with rfl | hlt'
    · exact absurd hanswer (hnot response)
    · exact h.stops n response (by rw [length_call]; exact hlt') hlt hanswer
  last := h.last

/-- **Requests and then more of them**, where the first ones are not answered. -/
theorem Asks.then {x : Res β} {p₂ : Progress A} (h : Asks result' replies line p (x, p₁))
    (hx : ∀ response, x ≠ .ok (result' response)) (hasked : p₂.asked = p₁.asked)
    (h' : Asks result replies line p₂ r) : Asks result replies line p r where
  grows := by
    obtain ⟨more, hmore, hlines⟩ := h.grows
    obtain ⟨more', hmore', hlines'⟩ := h'.grows
    refine ⟨more ++ more', ?_, fun q hq => (List.mem_append.1 hq).elim (hlines q) (hlines' q)⟩
    rw [hmore', hasked, hmore, List.append_assoc]
  stops n response hle hlt hanswer := by
    by_cases hn : n < p₁.asked.length
    · exact absurd (h.stops n response hle hn hanswer).2 (hx response)
    · exact h'.stops n response (by rw [hasked]; exact Nat.not_lt.1 hn) hlt hanswer
  last := h'.last

/-- The answer of the last request is the result. -/
theorem Asks.answered {response : String} (h : Asks result' replies line p (.ok (result' response), p₁))
    (hinj : Function.Injective result) : Asks result replies line p (.ok (result response), p₁) where
  grows := h.grows
  stops n response' hle hlt hanswer := by
    obtain ⟨hn, heq⟩ := h.stops n response' hle hlt hanswer
    obtain ⟨n', hn', hanswer'⟩ := h.last response rfl
    obtain rfl : n = n' := by dsimp only at hn hn'; omega
    obtain rfl := Except.ok.inj (hanswer.1.symm.trans hanswer'.1)
    exact ⟨hn, rfl⟩
  last response' heq := by
    obtain rfl := hinj (Except.ok.inj heq)
    exact h.last response rfl

theorem answered_injective : Function.Injective Visit.answered := fun _ _ h => Visit.answered.inj h

/-- The loop over the nodes. -/
theorem asks_visit (c : ClusterClient A) (replies : Replies) (line : String) (ids : List U64) (p : Progress A) :
    Asks Visit.answered replies line p ((c.visit replies line ids).run p) := by
  induction ids generalizing p with
  | nil => exact asks_none (fun response h => nomatch h) rfl
  | cons id ids ih =>
    by_cases hknown : c.Knows id
    · obtain ⟨address, haddress⟩ := Option.isSome_iff_exists.1 hknown
      rw [run_visit_cons replies line haddress ids p]
      cases hreply : replies p.asked.length with
      | error e => exact (ih _).call fun response h => (nomatch hreply.symm.trans h.1)
      | ok response =>
        dsimp only
        cases hredirect : stripPrefix "REDIRECT " response with
        | some target =>
          have hredirects : Redirects (replies p.asked.length) target := ⟨response, hreply, hredirect⟩
          have hnone : Asks Visit.answered replies line (Progress.call p address line)
              (.ok (.redirected (U64.parse target)), Progress.call p address line) :=
            asks_none (fun response h => (nomatch h)) rfl
          exact hnone.call fun response' h => h.not_redirects hredirects
        | none =>
          dsimp only
          split_ifs with hretry
          · refine (ih _).call fun response' h => h.not_passed fun response'' heq => ?_
            obtain rfl := Except.ok.inj (hreply.symm.trans heq)
            exact ⟨hredirect, hretry⟩
          · exact asks_answered answered_injective ⟨hreply, hredirect, Option.not_isSome_iff_eq_none.1 hretry⟩
    · rw [run_visit_unknown hknown]
      exact asks_none (fun response h => nomatch h) rfl

/-- The loop over the attempts. -/
theorem asks_rounds (c : ClusterClient A) (replies : Replies) (line : String) (attempts : ℕ)
    (preferred : Option U64) (delay : ℕ) (p : Progress A) :
    Asks (fun response => response) replies line p ((c.rounds replies line attempts preferred delay).run p) := by
  induction attempts generalizing preferred delay p with
  | zero => exact asks_none (fun response h => by cases h) rfl
  | succ attempts ih =>
    have hvisit := asks_visit c replies line (c.order preferred) p
    rcases hrun : (c.visit replies line (c.order preferred)).run p with ⟨e | visited, p₁⟩
    · rw [hrun] at hvisit
      rw [rounds, Act.run_bind_error hrun]
      exact hvisit.then (fun response h => by cases h) rfl (asks_none (fun response h => by cases h) rfl)
    · rw [hrun] at hvisit
      cases visited with
      | answered response =>
        rw [run_rounds_answered hrun]
        exact hvisit.answered (fun _ _ h => h)
      | redirected target =>
        rw [run_rounds_redirected attempts delay hrun]
        refine hvisit.then (fun response h => by cases h) ?_ (ih _ _ _)
        rfl
      | exhausted =>
        rw [run_rounds_exhausted attempts delay hrun]
        refine hvisit.then (fun response h => by cases h) ?_ (ih _ _ _)
        rfl

/-- **`request`** asks the same until it gets an answer. -/
theorem asks_request (c : ClusterClient A) (replies : Replies) (line : String) :
    Asks (fun response => response) replies line {} ((c.request replies line).run {}) :=
  asks_rounds c replies line _ _ _ _

end Asks

end ClusterClient

namespace Call
variable {A : Type} {key value : String} {call : Call A} {n : ℕ} {response : String} {observed : Option String}

/-- What the call makes of an answer. -/
def result (call : Call A) (response : String) : Outcome :=
  match call.entry.operation with
  | .write _ => if (stripPrefix "OK " response).isSome then .ok none else .info
  | .read =>
    match readAnswer response with
    | .ok value => .ok value
    | .error _ => .info

/-- A call is a request, and what it makes of the answer. -/
theorem run_eq (key : String) (call : Call A) : call.run key =
    (match ((call.client.request call.replies (call.request key).line).run {}).1 with
      | .ok response => call.result response
      | .error _ => .info, ((call.client.request call.replies (call.request key).line).run {}).2) := by
  unfold run result request
  cases call.entry.operation with
  | write value =>
    dsimp only
    rw [ClusterClient.put, Act.run_bind]
    rcases (call.client.request call.replies (Request.put key value).line).run {} with ⟨e | response, p⟩
    · rfl
    · dsimp only
      unfold ClusterClient.confirmed
      split_ifs <;> rfl
  | read =>
    dsimp only
    rw [ClusterClient.get, Act.run_bind]
    rcases (call.client.request call.replies (Request.get key).line).run {} with ⟨e | response, p⟩
    · rfl
    · dsimp only
      rw [Act.run_lift]
      cases readAnswer response <;> rfl

/-- All requests of a call are the same. -/
theorem line_of_asked {a : A} {line : String} (h : (call.asked key)[n]? = some (a, line)) :
    line = (call.request key).line := by
  obtain ⟨more, hmore, hlines⟩ := (call.client.asks_request call.replies (call.request key).line).grows
  rw [asked, run_eq, hmore] at h
  exact hlines (a, line) (List.mem_of_getElem? h)

/-- An answer is the reply to the last request. -/
theorem last_of_answers (hn : n < (call.asked key).length) (h : Answers (call.replies n) response) :
    n + 1 = (call.asked key).length ∧ (call.run key).1 = call.result response := by
  have hasks := call.client.asks_request call.replies (call.request key).line
  rw [asked, run_eq] at hn ⊢
  obtain ⟨hlast, hresult⟩ := hasks.stops n response (Nat.zero_le _) hn h
  rw [hresult]
  exact ⟨hlast, rfl⟩

/-- A call that has completed has got an answer. -/
theorem answers_of_ok (h : (call.run key).1 = .ok observed) : ∃ n response, n + 1 = (call.asked key).length ∧
    Answers (call.replies n) response ∧ call.result response = .ok observed := by
  have hasks := call.client.asks_request call.replies (call.request key).line
  rw [run_eq] at h
  rw [asked, run_eq]
  dsimp only at h
  cases hresult : ((call.client.request call.replies (call.request key).line).run {}).1 with
  | error e =>
    rw [hresult] at h
    cases h
  | ok response =>
    rw [hresult] at h
    obtain ⟨n, hn, hanswer⟩ := hasks.last response hresult
    exact ⟨n, response, hn, hanswer, h⟩

theorem run_ne_fail (key : String) (call : Call A) : (call.run key).1 ≠ .fail := by
  rw [run_eq]
  dsimp only
  cases ((call.client.request call.replies (call.request key).line).run {}).1 with
  | error e => exact fun h => nomatch h
  | ok response =>
    dsimp only
    unfold result
    cases call.entry.operation with
    | write value =>
      dsimp only
      split_ifs <;> exact fun h => nomatch h
    | read =>
      dsimp only
      cases readAnswer response <;> exact fun h => nomatch h

end Call

/-! ## Answers -/

section Answers
variable {ids : List U64} {w w' : Servers} {i : U64} {up : U64 → Bool} {frame : Bytes} {line : String}
  {key value : String} {tombstone : Bool} {response : Res String} {request : Request}

/-- Only requests that are understood are answered. -/
theorem serve_parse (h : serve up w i frame = (w', .ok line)) : ∃ request, Request.parse frame = .ok request := by
  cases hparse : Request.parse frame with
  | ok request => exact ⟨request, rfl⟩
  | error e =>
    have hhandle : (w i).handle frame = (w i, .done (.error e)) := by rw [handle, hparse]
    rw [serve, hhandle] at h
    cases h

theorem replicate_ok {record : ReplicaValue} {alive : List U64} (h : replicate up w i key record alive = (w', .ok line)) :
    line = "OK " ++ record.version.print ∨ line = "RETRY indeterminate" := by
  unfold replicate at h
  dsimp only at h
  split_ifs at h
  · cases h
    exact Or.inr rfl
  · split at h
    · cases h
    · split_ifs at h
      · cases h
        exact Or.inl rfl
      · cases h
        exact Or.inr rfl

/-- What a write is answered with. -/
theorem write_ok (h : write up w i key value tombstone = (w', .ok line)) (hok : (stripPrefix "OK " line).isSome) :
    ∃ version : U64, line = "OK " ++ version.print := by
  obtain ⟨text, htext⟩ := Option.isSome_iff_exists.1 hok
  have hinitial := initial_of_stripPrefix (x := 'O') rfl htext
  unfold write at h
  dsimp only at h
  split_ifs at h
  · cases h
    cases hinitial.symm.trans (initial_append rfl)
  · cases h
    cases hinitial
  · split at h
    · cases h
    · split at h
      · cases h
      · rename_i record _
        rcases replicate_ok h with rfl | rfl
        · exact ⟨record.version, rfl⟩
        · cases hinitial

theorem length_okLine (version : U64) : (utf8 ("OK " ++ version.print)).length ≤ MAX_FRAME := by
  have hpong := length_pong version
  have hlen : (utf8 "PONG ").length = 5 := by decide
  have hok : (utf8 "OK ").length = 3 := by decide
  rw [utf8_append, List.length_append, hlen] at hpong
  rw [utf8_append, List.length_append, hok]
  omega

/-- A delivered answer is the server's own, unless it is an error. -/
theorem Delivered.eq_ok (h : Delivered response (.ok line)) (hne : initial line ≠ some 'E') : response = .ok line := by
  unfold Delivered at h
  cases hfilter : (answerLine response).filter fun line => decide ((utf8 line).length ≤ MAX_FRAME) with
  | none =>
    rw [hfilter] at h
    obtain ⟨e, he⟩ := h
    cases he
  | some line' =>
    rw [hfilter] at h
    obtain rfl := Except.ok.inj h
    have hanswer := (Option.filter_eq_some_iff.1 hfilter).1
    cases response with
    | ok response => exact congrArg Except.ok (Option.some.inj hanswer)
    | error e => exact absurd (initial_error hanswer) hne

/-- An answer that fits into a frame is delivered. -/
theorem Delivered.eq_reply {reply : Except IoError String} (h : Delivered (.ok line) reply)
    (hfits : (utf8 line).length ≤ MAX_FRAME) : reply = .ok line := by
  unfold Delivered at h
  simp only [answerLine, Option.filter_some, hfits, decide_true, if_true] at h
  exact h

/-- A line that confirms a write is an answer. -/
theorem answers_okLine {reply : Except IoError String} (hreply : reply = .ok line)
    (hok : (stripPrefix "OK " line).isSome) : Answers reply line := by
  obtain ⟨text, htext⟩ := Option.isSome_iff_exists.1 hok
  have hinitial := initial_of_stripPrefix (x := 'O') rfl htext
  refine ⟨hreply, Option.eq_none_iff_forall_not_mem.2 fun rest h => ?_, Option.eq_none_iff_forall_not_mem.2 fun rest h => ?_⟩
  · cases hinitial.symm.trans (initial_of_stripPrefix (x := 'R') rfl h)
  · cases hinitial.symm.trans (initial_of_stripPrefix (x := 'R') rfl h)

/-- **The answer to a write** can be delivered, and is an answer for the client. -/
theorem Round.okLine {event : RoundEvent} (h : Round ids w (event, .ok line) w')
    (hevent : event = .request i up frame) (hparse : Request.parse frame = .ok request)
    (hrequest : (∃ key value, request = .put key value) ∨ ∃ key, request = .delete key)
    (hok : (stripPrefix "OK " line).isSome) : (utf8 line).length ≤ MAX_FRAME := by
  subst hevent
  cases h with
  | request hi hserve =>
    have hwrite : ∃ key value tombstone, write up w i key value tombstone = (w', .ok line) := by
      rcases hrequest with ⟨key, value, rfl⟩ | ⟨key, rfl⟩
      · have hhandle : (w i).handle frame = (w i, .run (.write key value false)) := by rw [handle, hparse]; rfl
        rw [serve, hhandle] at hserve
        simp only [Function.update_eq_self] at hserve
        exact ⟨key, value, false, hserve⟩
      · have hhandle : (w i).handle frame = (w i, .run (.write key "" true)) := by rw [handle, hparse]; rfl
        rw [serve, hhandle] at hserve
        simp only [Function.update_eq_self] at hserve
        exact ⟨key, "", true, hserve⟩
    obtain ⟨key, value, tombstone, hwrite⟩ := hwrite
    obtain ⟨version, rfl⟩ := write_ok hwrite hok
    exact length_okLine version

theorem Round.parse (h : Round ids w (.request i up frame, .ok line) w') : ∃ request, Request.parse frame = .ok request := by
  cases h with
  | request hi hserve => exact serve_parse hserve

/-- The effect of a write that is confirmed. -/
theorem effect_put (hparse : Request.parse frame = .ok (.put key value)) (hok : (stripPrefix "OK " line).isSome) :
    effect (.request i up frame, .ok line) = [.write key (some value)] := by
  rw [effect, hparse]
  exact if_pos hok

theorem effect_get {observed : Option String} (hparse : Request.parse frame = .ok (.get key))
    (hread : readAnswer line = .ok observed) : effect (.request i up frame, .ok line) = [.read key observed] := by
  rw [effect, hparse]
  dsimp only
  rw [hread]

/-- **Where a write comes from**: a confirmed `PUT`, or `DELETE`. -/
theorem mem_effect_write {p : RoundEvent × Res String} {observed : Option String} (h : .write key observed ∈ effect p) :
    ∃ i up frame line, p = (.request i up frame, .ok line) ∧ (stripPrefix "OK " line).isSome ∧
      ((∃ value, Request.parse frame = .ok (.put key value)) ∨ Request.parse frame = .ok (.delete key)) := by
  obtain ⟨event, response⟩ := p
  unfold effect at h
  split at h
  · rename_i i up frame line heq
    obtain ⟨rfl, rfl⟩ := Prod.mk.inj heq
    refine ⟨i, up, frame, line, rfl, ?_⟩
    split at h
    · rename_i key' value hparse
      split_ifs at h with hok
      · cases List.mem_singleton.1 h
        exact ⟨hok, Or.inl ⟨value, hparse⟩⟩
      · cases h
    · rename_i key' hparse
      split_ifs at h with hok
      · cases List.mem_singleton.1 h
        exact ⟨hok, Or.inr hparse⟩
      · cases h
    · split at h
      · cases List.mem_singleton.1 h
      · cases h
    · cases h
  · cases h

/-- The rounds of a run, in their order. -/
def chronicle (steps : List (Servers × RoundEvent × Res String)) : List (RoundEvent × Res String) :=
  (steps.map Prod.snd).reverse

theorem effects_eq (steps : List (Servers × RoundEvent × Res String)) :
    effects steps = ((chronicle steps).map effect).flatten := by
  induction steps with
  | nil => rfl
  | cons step steps ih =>
    rw [effects, ih, chronicle, chronicle, List.map_cons, List.reverse_cons, List.map_append, List.flatten_append,
      List.map_singleton, List.flatten_singleton]

/-- Each of them is a step. -/
theorem round_of_chronicle {steps : List (Servers × RoundEvent × Res String)} {w₀ : Servers}
    (h : Trace (Round ids) w₀ steps w) {j : ℕ} {p : RoundEvent × Res String} (hp : (chronicle steps)[j]? = some p) :
    ∃ w₁ w₂, Round ids w₁ p w₂ := by
  obtain ⟨q, hq, rfl⟩ := List.mem_map.1 (List.mem_reverse.1 (List.mem_of_getElem? hp))
  obtain ⟨w₂, hstep⟩ := h.step_of_mem hq
  exact ⟨q.1, w₂, hstep⟩

end Answers

/-! ## One key of a map -/

/-- Entries of a history that stand for operations on the key of a map, where `ops j` are done at the
    time `clock j`: every completed entry stands for one, and so does every write. -/
structure Stands (history : List HistoryEntry) (key : String) (ops : List (List (MapOp String (Option String))))
    (clock : ℕ → ℕ) (R : ℕ → ℕ → Prop) : Prop where
  once : ∀ {j j' c}, R j c → R j' c → j = j'
  op : ∀ {j c}, R j c → ∃ entry, history[c]? = some entry ∧ MayStand False entry (clock j) ∧
    ((∃ value, entry.operation = .write value ∧ ops[j]? = some [.write key (some value)]) ∨
      entry.operation = .read ∧ ∃ value, ops[j]? = some [.read key value] ∧ entry.outcome = .ok value)
  idle : ∀ {j o}, ops[j]? = some o → (∀ c, ¬ R j c) → ∀ value, .write key value ∉ o
  complete : ∀ c entry observed, history[c]? = some entry → entry.outcome = .ok observed → ∃ j, R j c

/-- Entries placed at the times of the operations from the `j`-th on. -/
structure PlacedFrom (history : List HistoryEntry) (clock : ℕ → ℕ) (R : ℕ → ℕ → Prop) (j : ℕ)
    (state : Option String) (placed : List (ℕ × ℕ)) : Prop where
  stands : ∀ p ∈ placed, ∃ i, j ≤ i ∧ R i p.1 ∧ p.2 = clock i
  nodup : (placed.map Prod.fst).Nodup
  sorted : placed.Pairwise fun p q => p.2 ≤ q.2
  complete : ∀ i c, j ≤ i → R i c → c ∈ placed.map Prod.fst
  legal : Legal state (entriesAt history (placed.map Prod.fst))

section Stands
variable {history : List HistoryEntry} {key : String} {ops rest : List (List (MapOp String (Option String)))}
  {clock : ℕ → ℕ} {R : ℕ → ℕ → Prop} {j c : ℕ} {state state' : Option String} {placed : List (ℕ × ℕ)}
  {m m' : String → Option String} {entry : HistoryEntry}

/-- No entry stands for the operations. -/
theorem PlacedFrom.skip (h : PlacedFrom history clock R (j + 1) state placed) (hnone : ∀ c, ¬ R j c) :
    PlacedFrom history clock R j state placed where
  stands p hp := by
    obtain ⟨i, hi, hR, ht⟩ := h.stands p hp
    exact ⟨i, by omega, hR, ht⟩
  nodup := h.nodup
  sorted := h.sorted
  complete i c hi hR := by
    rcases hi.eq_or_lt with rfl | hlt
    · exact absurd hR (hnone c)
    · exact h.complete i c hlt hR
  legal := h.legal

/-- An entry stands for the operation. -/
theorem PlacedFrom.take (h : PlacedFrom history clock R (j + 1) state' placed) (hclock : Monotone clock)
    (hstands : Stands history key ops clock R) (hR : R j c) (hsingle : ∀ c', R j c' → c' = c)
    (hentry : history[c]? = some entry)
    (hlegal : ∀ rest, Legal state' rest → Legal state (entry :: rest)) :
    PlacedFrom history clock R j state ((c, clock j) :: placed) where
  stands p hp := by
    rcases List.mem_cons.1 hp with rfl | hp
    · exact ⟨j, le_rfl, hR, rfl⟩
    · obtain ⟨i, hi, hRi, ht⟩ := h.stands p hp
      exact ⟨i, by omega, hRi, ht⟩
  nodup := by
    refine List.nodup_cons.2 ⟨fun hmem => ?_, h.nodup⟩
    obtain ⟨p, hp, hpc⟩ := List.mem_map.1 hmem
    obtain ⟨i, hi, hRi, -⟩ := h.stands p hp
    rw [hpc] at hRi
    have heq := hstands.once hRi hR
    omega
  sorted := by
    refine List.pairwise_cons.2 ⟨fun p hp => ?_, h.sorted⟩
    obtain ⟨i, hi, -, ht⟩ := h.stands p hp
    rw [ht]
    exact hclock (by omega)
  complete i c' hi hRi := by
    rcases hi.eq_or_lt with rfl | hlt
    · exact hsingle c' hRi ▸ List.mem_cons_self
    · exact List.mem_cons_of_mem _ (h.complete i c' hlt hRi)
  legal := by
    rw [List.map_cons, entriesAt_cons hentry]
    exact hlegal _ h.legal

/-- **The operations from the `j`-th on** make a sequential history of the register. -/
theorem Stands.placedFrom (h : Stands history key ops clock R) (hclock : Monotone clock)
    (hsingle : ∀ {j c c'}, R j c → R j c' → c = c') (hrest : ops.drop j = rest)
    (hserial : Serial m rest.flatten m') : ∃ placed, PlacedFrom history clock R j (m key) placed := by
  induction rest generalizing j m with
  | nil =>
    refine ⟨[], fun p hp => (nomatch hp), List.nodup_nil, .nil, fun i c hi hR => ?_, trivial⟩
    obtain ⟨entry, -, -, hop⟩ := h.op hR
    have hlt : i < ops.length := by
      rcases hop with ⟨value, -, hop⟩ | ⟨-, value, hop, -⟩
      · exact (List.getElem?_eq_some_iff.1 hop).1
      · exact (List.getElem?_eq_some_iff.1 hop).1
    have hlen := List.drop_eq_nil_iff.1 hrest
    omega
  | cons o rest ih =>
    have hget : ops[j]? = some o := by rw [← List.head?_drop, hrest, List.head?_cons]
    have hnext : ops.drop (j + 1) = rest := by rw [← List.tail_drop, hrest, List.tail_cons]
    obtain ⟨m₁, hfirst, hmore⟩ := hserial.split
    obtain ⟨placed, hplaced⟩ := ih hnext hmore
    by_cases hsome : ∃ c, R j c
    · obtain ⟨c, hR⟩ := hsome
      obtain ⟨entry, hentry, -, hop⟩ := h.op hR
      refine ⟨_, hplaced.take hclock h hR (fun c' hR' => hsingle hR' hR) hentry fun rest hlegal => ?_⟩
      rcases hop with ⟨value, hwrite, hop⟩ | ⟨hread, value, hop, hout⟩
      · rw [hget] at hop
        obtain rfl := Option.some.inj hop
        rw [hfirst.of_write, Function.update_self] at hlegal
        rw [Legal, hwrite]
        exact hlegal
      · rw [hget] at hop
        obtain rfl := Option.some.inj hop
        obtain ⟨rfl, rfl⟩ := hfirst.of_read
        rw [Legal, hread]
        refine ⟨fun observed hobserved => ?_, hlegal⟩
        rw [hout] at hobserved
        exact (Outcome.ok.inj hobserved).symm
    · have hnone : ∀ c, ¬ R j c := fun c hR => hsome ⟨c, hR⟩
      rw [← hfirst.frame (h.idle hget hnone)]
      exact ⟨placed, hplaced.skip hnone⟩

/-- **A register**: the entries make a sequential history. -/
theorem Stands.sequential (h : Stands history key ops clock R) (hclock : Monotone clock)
    (hsingle : ∀ {j c c'}, R j c → R j c' → c = c') (hserial : Serial (fun _ => none) ops.flatten m) :
    ∃ placed, Sequential history False placed := by
  obtain ⟨placed, hplaced⟩ := h.placedFrom (j := 0) hclock hsingle (List.drop_zero) hserial
  refine ⟨placed, hplaced.nodup, hplaced.sorted, fun p hp => ?_, fun c entry observed hentry hout => ?_, hplaced.legal⟩
  · obtain ⟨i, -, hR, ht⟩ := hplaced.stands p hp
    obtain ⟨entry, hentry, hstand, -⟩ := h.op hR
    exact ⟨entry, hentry, ht ▸ hstand⟩
  · obtain ⟨j, hR⟩ := h.complete c entry observed hentry hout
    exact hplaced.complete j c (Nat.zero_le _) hR

end Stands

/-! ## Recorded histories -/

/-- The round `j` serves the last request of the call `c`, which writes, or returns what it has read. -/
def Standing {A : Type} (key : String) (calls : List (Call A)) (rounds : List (RoundEvent × Res String))
    (source : ℕ → Option (ℕ × ℕ)) (j c : ℕ) : Prop :=
  ∃ n call p, source j = some (c, n) ∧ calls[c]? = some call ∧ n + 1 = (call.asked key).length ∧
    rounds[j]? = some p ∧
    match call.entry.operation with
    | .write _ => effect p ≠ []
    | .read => ∃ observed, call.entry.outcome = .ok observed

section Recorded
variable {A : Type} {host : A → U64} {key value : String} {calls : List (Call A)} {call : Call A} {ids : List U64}
  {rounds : List (RoundEvent × Res String)} {clock : ℕ → ℕ} {source : ℕ → Option (ℕ × ℕ)} {c j n : ℕ}
  {i : U64} {up : U64 → Bool} {response : Res String} {line : String} {w w' : Servers}

/-- What a client writes has no other effect. -/
theorem effect_of_put (h : effect (.request i up (utf8 (Request.put key value).line), response) ≠ []) :
    effect (.request i up (utf8 (Request.put key value).line), response) = [.write key (some value)] := by
  cases response with
  | error e => exact absurd rfl h
  | ok line =>
    by_cases htexts : "" ∈ (Request.put key value).texts
    · have hparse := Request.parse_line_of_empty htexts
      rw [effect, hparse] at h
      exact absurd rfl h
    · have hparse := Request.parse_line htexts
      by_cases hok : (stripPrefix "OK " line).isSome
      · exact effect_put hparse hok
      · rw [effect, hparse] at h
        exact absurd (if_neg hok) h

/-- A request of a client that is served with an answer is understood. -/
theorem Round.parse_request {request : Request} (h : Round ids w (.request i up (utf8 request.line), .ok line) w') :
    Request.parse (utf8 request.line) = .ok request := by
  by_cases htexts : "" ∈ request.texts
  · obtain ⟨request', hparse⟩ := h.parse
    rw [Request.parse_line_of_empty htexts] at hparse
    cases hparse
  · exact Request.parse_line htexts

/-- What a call makes of an answer that it returns is no error. -/
theorem Call.initial_ne {observed : Option String} (h : call.result line = .ok observed) : initial line ≠ some 'E' := by
  unfold Call.result at h
  cases hop : call.entry.operation with
  | write value =>
    rw [hop] at h
    dsimp only at h
    split_ifs at h with hok
    obtain ⟨text, htext⟩ := Option.isSome_iff_exists.1 hok
    rw [initial_of_stripPrefix (x := 'O') rfl htext]
    exact fun heq => nomatch heq
  | read =>
    rw [hop] at h
    dsimp only at h
    intro hinitial
    unfold readAnswer at h
    split_ifs at h with hnil
    · rw [hnil] at hinitial
      cases hinitial
    · cases hvalue : stripPrefix "VALUE " line with
      | none =>
        rw [hvalue] at h
        cases h
      | some text => cases hinitial.symm.trans (initial_of_stripPrefix (x := 'V') rfl hvalue)

/-- **The effect of an answer** that a call returns. -/
theorem Call.effect_eq {observed : Option String} (hresult : call.result line = .ok observed)
    (hround : Round ids w (.request i up (utf8 (call.request key).line), .ok line) w') :
    effect (.request i up (utf8 (call.request key).line), .ok line) =
      match call.entry.operation with
      | .write value => [.write key (some value)]
      | .read => [.read key observed] := by
  have hparse := hround.parse_request
  unfold Call.result at hresult
  unfold Call.request at hparse ⊢
  cases hop : call.entry.operation with
  | write value =>
    rw [hop] at hresult hparse
    dsimp only at hresult hparse ⊢
    split_ifs at hresult with hok
    exact effect_put hparse hok
  | read =>
    rw [hop] at hresult hparse
    dsimp only at hresult hparse ⊢
    cases hread : readAnswer line with
    | error e =>
      rw [hread] at hresult
      cases hresult
    | ok value =>
      rw [hread] at hresult
      cases hresult
      exact effect_get hparse hread

/-- **A call that has completed**: its last request is served, with the answer that it returns. -/
theorem Recorded.completed {observed : Option String} (h : Recorded host key calls rounds clock source)
    (hcall : calls[c]? = some call) (hout : call.entry.outcome = .ok observed) :
    ∃ j n a up line, source j = some (c, n) ∧ n + 1 = (call.asked key).length ∧
      rounds[j]? = some (.request (host a) up (utf8 (call.request key).line), .ok line) ∧
      call.result line = .ok observed := by
  rw [h.outcome call (List.mem_of_getElem? hcall)] at hout
  obtain ⟨n, line, hlast, hanswer, hresult⟩ := Call.answers_of_ok hout
  obtain ⟨j, hj⟩ : ∃ j, source j = some (c, n) := by
    by_contra hnone
    obtain ⟨e, he⟩ := h.failed c call n hcall (by omega) fun j hj => hnone ⟨j, hj⟩
    cases he.symm.trans hanswer.1
  obtain ⟨call', hcall', -, -, a, line', up, response, hasked, hround, hreply⟩ := h.served j c n hj
  obtain rfl := Option.some.inj (hcall.symm.trans hcall')
  obtain rfl := Call.line_of_asked hasked
  rw [hanswer.1] at hreply
  rcases hreply with hdelivered | ⟨-, e, he⟩
  · obtain rfl := hdelivered.eq_ok (Call.initial_ne hresult)
    exact ⟨j, n, a, up, line, hj, hlast, hround, hresult⟩
  · cases he

/-- **The effect of a call**: that of the round that stands for it. -/
theorem Recorded.op (h : Recorded host key calls rounds clock source)
    (hrounds : ∀ (j : ℕ) p, rounds[j]? = some p → ∃ w w', Round ids w p w') (hR : Standing key calls rounds source j c) :
    ∃ entry, (calls.map Call.entry)[c]? = some entry ∧ MayStand False entry (clock j) ∧
      ((∃ value, entry.operation = .write value ∧ (rounds.map effect)[j]? = some [.write key (some value)]) ∨
        entry.operation = .read ∧ ∃ value, (rounds.map effect)[j]? = some [.read key value] ∧
          entry.outcome = .ok value) := by
  obtain ⟨n, call, p, hj, hcall, hlast, hp, hop⟩ := hR
  obtain ⟨call', hcall', hinvoke, hcomplete, a, line, up, response, hasked, hround, hreply⟩ := h.served j c n hj
  obtain rfl := Option.some.inj (hcall.symm.trans hcall')
  obtain rfl := Call.line_of_asked hasked
  obtain rfl := Option.some.inj (hp.symm.trans hround)
  have heffect : (rounds.map effect)[j]? =
      some (effect (.request (host a) up (utf8 (call.request key).line), response)) := by
    rw [List.getElem?_map, hround]
    rfl
  have hmay : call.entry.outcome ≠ .fail := by
    rw [h.outcome call (List.mem_of_getElem? hcall)]
    exact Call.run_ne_fail key call
  refine ⟨call.entry, by rw [List.getElem?_map, hcall]; rfl, ⟨hinvoke, ?_⟩, ?_⟩
  · cases hout : call.entry.outcome with
    | ok observed => exact hcomplete
    | fail => exact absurd hout hmay
    | info =>
      cases hoperation : call.entry.operation with
      | write value => exact Or.inr hcomplete
      | read =>
        rw [hoperation] at hop
        obtain ⟨observed, hobserved⟩ := hop
        cases hout.symm.trans hobserved
  · cases hoperation : call.entry.operation with
    | write value =>
      rw [hoperation] at hop
      have hrequest : call.request key = .put key value := by rw [Call.request, hoperation]
      rw [hrequest] at hop heffect
      exact Or.inl ⟨value, rfl, by rw [heffect, effect_of_put hop]⟩
    | read =>
      rw [hoperation] at hop
      obtain ⟨observed, hobserved⟩ := hop
      obtain ⟨j', n', a', up', line, hj', hlast', hround', hresult⟩ := h.completed hcall hobserved
      obtain rfl : n = n' := by omega
      obtain rfl := h.once j j' _ hj hj'
      obtain ⟨heq, rfl⟩ := Prod.mk.inj (Option.some.inj (hround.symm.trans hround'))
      obtain ⟨w, w', hstep⟩ := hrounds j _ hround
      rw [Call.effect_eq hresult hstep, hoperation] at heffect
      exact Or.inr ⟨rfl, observed, heffect, hobserved⟩

/-- **Other rounds** do not write. -/
theorem Recorded.idle (h : Recorded host key calls rounds clock source)
    (hrounds : ∀ (j : ℕ) p, rounds[j]? = some p → ∃ w w', Round ids w p w') {p : RoundEvent × Res String}
    (hp : rounds[j]? = some p) (hnone : ∀ c, ¬ Standing key calls rounds source j c) (observed : Option String) :
    .write key observed ∉ effect p := by
  intro hmem
  obtain ⟨i, up, frame, line, rfl, hok, hparse⟩ := mem_effect_write hmem
  obtain ⟨⟨c, n⟩, hj⟩ := h.writes j i up frame _ hp hparse
  obtain ⟨call, hcall, -, -, a, line', up', response, hasked, hround, hreply⟩ := h.served j c n hj
  obtain rfl := Call.line_of_asked hasked
  obtain ⟨heq, rfl⟩ := Prod.mk.inj (Option.some.inj (hp.symm.trans hround))
  obtain ⟨rfl, rfl, rfl⟩ := RoundEvent.request.inj heq
  obtain ⟨w, w', hstep⟩ := hrounds j _ hp
  have hrequest := hstep.parse_request
  have hlt : n < (call.asked key).length := (List.getElem?_eq_some_iff.1 hasked).1
  -- the request is a `PUT`, whose reply ends the call
  have hput : (∃ key' value', call.request key = .put key' value') ∨ ∃ key', call.request key = .delete key' := by
    rw [hrequest] at hparse
    rcases hparse with ⟨value, hput⟩ | hdelete
    · exact Or.inl ⟨key, value, Except.ok.inj hput⟩
    · exact Or.inr ⟨key, Except.ok.inj hdelete⟩
  have hlast : n + 1 = (call.asked key).length := by
    rcases hreply with hdelivered | ⟨hlast, -⟩
    · have hfits := hstep.okLine rfl hrequest hput hok
      exact (Call.last_of_answers hlt (answers_okLine (hdelivered.eq_reply hfits) hok)).1
    · exact hlast
  refine hnone c ⟨n, call, _, hj, hcall, hlast, hp, ?_⟩
  cases hoperation : call.entry.operation with
  | write value => exact List.ne_nil_of_mem hmem
  | read =>
    rw [Call.request, hoperation] at hput
    rcases hput with ⟨key', value', hput⟩ | ⟨key', hdelete⟩
    · cases hput
    · cases hdelete

/-- The rounds of a run stand for the calls. -/
theorem Recorded.stands (h : Recorded host key calls rounds clock source)
    (hrounds : ∀ (j : ℕ) p, rounds[j]? = some p → ∃ w w', Round ids w p w') :
    Stands (calls.map Call.entry) key (rounds.map effect) clock (Standing key calls rounds source) where
  once {j j' c} hR hR' := by
    obtain ⟨n, call, p, hj, hcall, hlast, -⟩ := hR
    obtain ⟨n', call', p', hj', hcall', hlast', -⟩ := hR'
    obtain rfl := Option.some.inj (hcall.symm.trans hcall')
    obtain rfl : n = n' := by omega
    exact h.once j j' _ hj hj'
  op hR := h.op hrounds hR
  idle {j o} ho hnone := by
    rw [List.getElem?_map, Option.map_eq_some_iff] at ho
    obtain ⟨p, hp, rfl⟩ := ho
    exact h.idle hrounds hp hnone
  complete c entry observed hentry hout := by
    rw [List.getElem?_map, Option.map_eq_some_iff] at hentry
    obtain ⟨call, hcall, rfl⟩ := hentry
    obtain ⟨j, n, a, up, line, hj, hlast, hround, hresult⟩ := h.completed hcall hout
    obtain ⟨w, w', hstep⟩ := hrounds j _ hround
    refine ⟨j, n, call, _, hj, hcall, hlast, hround, ?_⟩
    have heffect := Call.effect_eq hresult hstep
    cases hoperation : call.entry.operation with
    | write value =>
      rw [hoperation] at heffect
      rw [heffect]
      exact List.cons_ne_nil _ _
    | read => exact ⟨observed, hout⟩

/-- **Linearizability**: the checker accepts the history of any calls of clients on a key, if the key is
    written by these calls only, a request is served while its call goes on or not at all, and no reply
    is lost but the one on which a client gives up. -/
theorem recorded_linearizable {steps : List (Servers × RoundEvent × Res String)} (hnodup : ids.Nodup)
    (hodd : Odd ids.length) (hrun : Trace (Round ids) (freshServers ids) steps w)
    (hclients : ∀ p ∈ steps, FromClient p.2.1) (hfit : ∀ p ∈ steps, DumpsFit ids p.1) (hclock : Monotone clock)
    (hrecorded : Recorded host key calls (chronicle steps) clock source)
    (hvalid : ∀ call ∈ calls, call.entry.invoke ≤ call.entry.complete) :
    isLinearizable (calls.map Call.entry) = true := by
  have hrounds : ∀ (j : ℕ) p, (chronicle steps)[j]? = some p → ∃ w w', Round ids w p w' :=
    fun j p hp => round_of_chronicle hrun hp
  obtain ⟨latest, held, -, hserial⟩ := settled_run hnodup hodd hrun hclients hfit
  rw [effects_eq] at hserial
  refine (isLinearizable_iff_inTime fun entry hentry => ?_).2 ((hrecorded.stands hrounds).sequential hclock ?_ hserial)
  · obtain ⟨call, hcall, rfl⟩ := List.mem_map.1 hentry
    exact hvalid call hcall
  · rintro j c c' ⟨n, call, p, hj, -⟩ ⟨n', call', p', hj', -⟩
    exact (Prod.mk.inj (Option.some.inj (hj.symm.trans hj'))).1

end Recorded

/-- A client that has the three servers in its table. -/
def threeServers : ClusterClient U64 :=
  ClusterClient.new (((SortedMap.empty.insert 1 1).insert 2 2).insert 3 3)

/-- A call that writes. -/
def writing : Call U64 := ⟨threeServers, fun _ => .ok "OK 1", 0, 0, 2, .write "v", .ok none⟩

/-- A call that reads, whose first request fails. -/
def reading : Call U64 :=
  ⟨threeServers, fun n => if n = 0 then .error ⟨.timedOut, ""⟩ else .ok "VALUE 76", 1, 3, 5, .read, .ok (some "v")⟩

/-- The first round serves the first call, and the second one the second request of the second call. -/
def sources : ℕ → Option (ℕ × ℕ)
  | 0 => some (0, 0)
  | 1 => some (1, 1)
  | _ => none

theorem recorded_writing_reading :
    Recorded (fun a => a) "k" [writing, reading] (chronicle putThenGet) (fun j => 3 * j + 1) sources where
  served j c n h := by
    match j with
    | 0 =>
      cases h
      have hput : firstPut.2 = .ok "OK 1" := by decide +kernel
      refine ⟨_, rfl, by decide, by decide, 1, (Request.put "k" "v").line, fun _ => true, firstPut.2,
        by decide +kernel, rfl, Or.inl ?_⟩
      rw [hput]
      rfl
    | 1 =>
      cases h
      have hget : secondGet.2 = .ok "VALUE 76" := by decide +kernel
      refine ⟨_, rfl, by decide, by decide, 2, (Request.get "k").line, fun peer => peer ≠ 1, secondGet.2,
        by decide +kernel, rfl, Or.inl ?_⟩
      rw [hget]
      rfl
    | _ + 2 => cases h
  once j j' p h h' := by
    match j, j' with
    | 0, 0 => rfl
    | 1, 1 => rfl
    | 0, 1 => cases h; cases h'
    | 1, 0 => cases h; cases h'
    | _ + 2, _ => cases h
    | _, _ + 2 => cases h'
  failed c call n hcall hn hnone := by
    match c with
    | 0 =>
      cases hcall
      have hlen : (writing.asked "k").length = 1 := by decide +kernel
      obtain rfl : n = 0 := by omega
      exact absurd rfl (hnone 0)
    | 1 =>
      cases hcall
      have hlen : (reading.asked "k").length = 2 := by decide +kernel
      match n with
      | 0 => exact ⟨_, rfl⟩
      | 1 => exact absurd rfl (hnone 1)
      | _ + 2 => omega
    | _ + 2 => cases hcall
  outcome := by decide +kernel
  writes j i up frame response h hparse := by
    match j with
    | 0 => exact ⟨_, rfl⟩
    | 1 => exact ⟨_, rfl⟩
    | _ + 2 => cases h

/-- The second server reads for a client what the first one has written for another one. -/
theorem recorded_linearizable_read : isLinearizable ([writing, reading].map Call.entry) = true := by
  refine recorded_linearizable (by decide) (by decide) putThenGet_trace putThenGet_clients putThenGet_fit ?_
    recorded_writing_reading (by decide)
  intro j j' hle
  dsimp only
  omega

end NutDb.Server
