/-
  The client of the cluster (`ClusterClient` of `src/client.rs`).

  `request` asks one node after the other, in at most `attempts` rounds, and first
  the node that the last `REDIRECT` has named.  `replies` are what the calls of
  `request_peer` give, in their order: any answers, or none.

  A node that a `REDIRECT` has named is looked up in the table of the client, which
  need not have all nodes.  `request_orderly_iff` says when this goes well: no
  `REDIRECT` that is followed may name a node that the table does not have.
-/
import NutDb.Lib.Act
import NutDb.Lib.Quorum
import NutDb.Lib.SortedMap
import NutDb.Server.Agreement
import NutDb.Server.Write

namespace NutDb.Server

open Lib

/-- `ClusterClient`, with addresses of any kind. -/
structure ClusterClient (A : Type) where
  nodes : SortedMap U64 A
  attempts : ℕ

/-- What a client has done: its calls of `request_peer`, and how long it has slept. -/
structure Progress (A : Type) where
  asked : List (A × String) := []
  slept : ℕ := 0

/-- How the loop over the nodes ends. -/
inductive Visit where
  | answered (response : String)
  | redirected (preferred : Option U64)
  | exhausted
  deriving DecidableEq, Repr

/-- What the calls of `request_peer` give. -/
abbrev Replies := ℕ → Except IoError String

/-- `request_peer`: the next reply. -/
def requestPeer {A : Type} (replies : Replies) (address : A) (request : String) :
    Act (Progress A) (Except IoError String) := do
  let calls ← Act.gets fun p => p.asked.length
  Act.modify fun p => { p with asked := p.asked ++ [(address, request)] }
  return replies calls

namespace ClusterClient
variable {A : Type}

/-- `ClusterClient::new`. -/
def new (nodes : SortedMap U64 A) : ClusterClient A := ⟨nodes, 8⟩

/-- The keys of the table. -/
def ids (c : ClusterClient A) : List U64 := c.nodes.entries.map Prod.fst

/-- `self.nodes[&id]`. -/
def address (c : ClusterClient A) (id : U64) : Res A :=
  match c.nodes.get id with
  | some address => .ok address
  | none => .error (.panic (.expect "no entry found for key"))

/-- The nodes in the order in which they are asked. -/
def order (c : ClusterClient A) (preferred : Option U64) : List U64 :=
  preferred.toList ++ c.ids.filter fun id => decide (some id ≠ preferred)

/-- The loop over the nodes. -/
def visit (c : ClusterClient A) (replies : Replies) (request : String) : List U64 → Act (Progress A) Visit
  | [] => pure .exhausted
  | id :: ids => do
    let address ← Act.lift (c.address id)
    let reply ← requestPeer replies address request
    match reply with
    | .error _ => visit c replies request ids
    | .ok response =>
      match stripPrefix "REDIRECT " response with
      | some target => return .redirected (U64.parse target)
      | none =>
        if (stripPrefix "RETRY " response).isSome then visit c replies request ids
        else return .answered response

/-- The loop over the attempts. -/
def rounds (c : ClusterClient A) (replies : Replies) (request : String) :
    ℕ → Option U64 → ℕ → Act (Progress A) String
  | 0, _, _ => Act.fail .timedOut "cluster: no majority leader answered"
  | attempts + 1, preferred, delay => do
    let visited ← c.visit replies request (c.order preferred)
    match visited with
    | .answered response => return response
    | .redirected target => do
      Act.modify fun p => { p with slept := p.slept + delay }
      rounds c replies request attempts target (min (delay * 2) 100)
    | .exhausted => do
      Act.modify fun p => { p with slept := p.slept + delay }
      rounds c replies request attempts preferred (min (delay * 2) 100)

/-- `ClusterClient::request`. -/
def request (c : ClusterClient A) (replies : Replies) (request : String) : Act (Progress A) String :=
  c.rounds replies request c.attempts c.ids.head? 5

/-- The end of `put` and `delete`. -/
def confirmed (message response : String) : Act (Progress A) Unit :=
  if (stripPrefix "OK " response).isSome then pure () else Act.fail .timedOut message

/-- `ClusterClient::put`. -/
def put (c : ClusterClient A) (replies : Replies) (key value : String) : Act (Progress A) Unit := do
  let response ← c.request replies (Request.put key value).line
  confirmed "cluster: write remained indeterminate" response

/-- `ClusterClient::delete`. -/
def delete (c : ClusterClient A) (replies : Replies) (key : String) : Act (Progress A) Unit := do
  let response ← c.request replies (Request.delete key).line
  confirmed "cluster: delete remained indeterminate" response

/-- `ClusterClient::get`. -/
def get (c : ClusterClient A) (replies : Replies) (key : String) : Act (Progress A) (Option String) := do
  let response ← c.request replies (Request.get key).line
  Act.lift (readAnswer response)

/-- `ClusterClient::block` and `ClusterClient::heal`. -/
def admin (c : ClusterClient A) (replies : Replies) (node : U64) (request : Request) (message : String) :
    Act (Progress A) Unit := do
  let address ← Act.lift (Res.ofOption .invalidInput "cluster: unknown node" (c.nodes.get node))
  let reply ← requestPeer replies address request.line
  match reply with
  | .error e => Act.lift (.error (.io e))
  | .ok response => if response = "OK" then pure () else Act.fail .invalidInput message

/-- `ClusterClient::block`. -/
def block (c : ClusterClient A) (replies : Replies) (node peer : U64) : Act (Progress A) Unit :=
  c.admin replies node (.adminBlock peer) "cluster: block failed"

/-- `ClusterClient::heal`. -/
def heal (c : ClusterClient A) (replies : Replies) (node : U64) : Act (Progress A) Unit :=
  c.admin replies node .adminHeal "cluster: heal failed"

end ClusterClient

/-! ## Replies -/

/-- The client goes on to the next node. -/
def Passed (reply : Except IoError String) : Prop :=
  ∀ response, reply = .ok response →
    stripPrefix "REDIRECT " response = none ∧ (stripPrefix "RETRY " response).isSome

/-- The reply names another node. -/
def Redirects (reply : Except IoError String) (target : String) : Prop :=
  ∃ response, reply = .ok response ∧ stripPrefix "REDIRECT " response = some target

/-- The reply is an answer to the request. -/
def Answers (reply : Except IoError String) (response : String) : Prop :=
  reply = .ok response ∧ stripPrefix "REDIRECT " response = none ∧ stripPrefix "RETRY " response = none

/-- In `attempts` rounds that begin with the `k`-th reply, and have `n` nodes each, a reply that is
    followed names a node that is not known. -/
inductive Strays (known : U64 → Prop) (n : ℕ) (replies : Replies) : ℕ → ℕ → Prop
  | here {attempts k j target id} : j < n → (∀ i < j, Passed (replies (k + i))) →
      Redirects (replies (k + j)) target → U64.parse target = some id → ¬ known id →
      Strays known n replies (attempts + 2) k
  | passed {attempts k} : (∀ i < n, Passed (replies (k + i))) → Strays known n replies attempts (k + n) →
      Strays known n replies (attempts + 1) k
  | redirected {attempts k j target} : j < n → (∀ i < j, Passed (replies (k + i))) →
      Redirects (replies (k + j)) target → Strays known n replies attempts (k + j + 1) →
      Strays known n replies (attempts + 1) k

section Replies
variable {reply : Except IoError String} {target target' response : String} {replies : Replies}

theorem reply_cases (reply : Except IoError String) :
    Passed reply ∨ (∃ target, Redirects reply target) ∨ ∃ response, Answers reply response := by
  cases reply with
  | error e => exact Or.inl fun _ h => (nomatch h)
  | ok response =>
    cases hredirect : stripPrefix "REDIRECT " response with
    | some target => exact Or.inr (Or.inl ⟨target, response, rfl, hredirect⟩)
    | none =>
      cases hretry : stripPrefix "RETRY " response with
      | none => exact Or.inr (Or.inr ⟨response, rfl, hredirect, hretry⟩)
      | some rest =>
        refine Or.inl fun response' h => ?_
        cases h
        exact ⟨hredirect, by rw [hretry]; rfl⟩

theorem Redirects.not_passed (h : Redirects reply target) : ¬ Passed reply := by
  obtain ⟨response, rfl, hredirect⟩ := h
  intro hpassed
  rw [(hpassed response rfl).1] at hredirect
  cases hredirect

theorem Answers.not_passed (h : Answers reply response) : ¬ Passed reply := by
  intro hpassed
  have hretry := (hpassed response h.1).2
  rw [h.2.2] at hretry
  cases hretry

theorem Redirects.unique (h : Redirects reply target) (h' : Redirects reply target') : target = target' := by
  obtain ⟨response, rfl, hredirect⟩ := h
  obtain ⟨response', heq, hredirect'⟩ := h'
  cases heq
  rw [hredirect] at hredirect'
  exact Option.some.inj hredirect'

theorem Answers.not_redirects (h : Answers reply response) : ¬ Redirects reply target := by
  rintro ⟨response', heq, hredirect⟩
  obtain ⟨rfl, hnone, -⟩ := h
  cases heq
  rw [hnone] at hredirect
  cases hredirect

/-- The first reply that is not passed. -/
theorem first_unique {k j j' : ℕ} (hj : ∀ i < j, Passed (replies (k + i))) (hnot : ¬ Passed (replies (k + j)))
    (hj' : ∀ i < j', Passed (replies (k + i))) (hnot' : ¬ Passed (replies (k + j'))) : j = j' := by
  rcases lt_trichotomy j j' with hlt | heq | hlt
  · exact absurd (hj' j hlt) hnot
  · exact heq
  · exact absurd (hj j' hlt) hnot'

end Replies

/-! ## Rounds -/

/-- How a loop over `n` nodes goes that begins with the `k`-th reply: what it finds, after how many
    calls. -/
inductive Visits (replies : Replies) (k n : ℕ) : Visit → ℕ → Prop
  | exhausted : (∀ i < n, Passed (replies (k + i))) → Visits replies k n .exhausted n
  | redirected {j target} : j < n → (∀ i < j, Passed (replies (k + i))) → Redirects (replies (k + j)) target →
      Visits replies k n (.redirected (U64.parse target)) (j + 1)
  | answered {j response} : j < n → (∀ i < j, Passed (replies (k + i))) → Answers (replies (k + j)) response →
      Visits replies k n (.answered response) (j + 1)

/-- The first node is passed. -/
theorem Visits.step {replies : Replies} {k n calls : ℕ} {visited : Visit} (hpassed : Passed (replies k))
    (h : Visits replies (k + 1) n visited calls) : Visits replies k (n + 1) visited (calls + 1) := by
  have hshift : ∀ {m}, (∀ i < m, Passed (replies (k + 1 + i))) → ∀ i < m + 1, Passed (replies (k + i)) := by
    intro m hm i hi
    cases i with
    | zero => exact hpassed
    | succ i =>
      rw [Nat.add_comm i 1, ← Nat.add_assoc]
      exact hm i (Nat.lt_of_succ_lt_succ hi)
  have hindex : ∀ j, k + 1 + j = k + (j + 1) := fun j => by omega
  cases h with
  | exhausted hall => exact .exhausted (hshift hall)
  | redirected hj hall hredirect =>
    rw [hindex] at hredirect
    exact .redirected (Nat.succ_lt_succ hj) (hshift hall) hredirect
  | answered hj hall hanswer =>
    rw [hindex] at hanswer
    exact .answered (Nat.succ_lt_succ hj) (hshift hall) hanswer

theorem Visits.calls_le {replies : Replies} {k n calls : ℕ} {visited : Visit}
    (h : Visits replies k n visited calls) : calls ≤ n := by
  cases h with
  | exhausted hall => exact le_rfl
  | redirected hj hall hredirect => exact hj
  | answered hj hall hanswer => exact hj

namespace ClusterClient
variable {A : Type} {c : ClusterClient A} {replies : Replies} {line : String} {p : Progress A}

/-- The table has the node. -/
def Knows (c : ClusterClient A) (id : U64) : Prop := (c.nodes.get id).isSome

/-- Only nodes of the table were asked. -/
def AskedKnown (c : ClusterClient A) (p : Progress A) : Prop :=
  ∀ call ∈ p.asked, ∃ id, c.nodes.get id = some call.1

theorem knows_iff {id : U64} : c.Knows id ↔ id ∈ c.ids := by
  rw [Knows, Option.isSome_iff_exists, ids, List.mem_map]
  constructor
  · rintro ⟨a, ha⟩
    exact ⟨(id, a), SortedMap.mem_entries.2 ha, rfl⟩
  · rintro ⟨⟨id, a⟩, he, rfl⟩
    exact ⟨a, SortedMap.mem_entries.1 he⟩

theorem nodup_ids (c : ClusterClient A) : c.ids.Nodup :=
  List.Pairwise.map _ (fun _ _ h => h.ne) c.nodes.sorted

/-- Each node is asked once in a round, also the preferred one. -/
theorem length_order {preferred : Option U64} (h : ∀ id, preferred = some id → c.Knows id) :
    (c.order preferred).length = c.ids.length := by
  unfold order
  cases preferred with
  | none =>
    rw [Option.toList_none, List.nil_append, List.filter_eq_self.2 fun id _ => by simp]
  | some id =>
    have hmem : id ∈ c.ids := knows_iff.1 (h id rfl)
    have hfilter : (c.ids.filter fun q => decide (some q ≠ some id)) = c.ids.filter fun q => decide (q ≠ id) :=
      List.filter_congr fun q _ => by simp
    rw [Option.toList_some, List.singleton_append, List.length_cons, hfilter]
    exact length_others c.nodup_ids hmem

theorem knows_of_mem_order {preferred : Option U64} (h : ∀ id, preferred = some id → c.Knows id) :
    ∀ id ∈ c.order preferred, c.Knows id := by
  intro id hid
  rcases List.mem_append.1 hid with hid | hid
  · exact h id (Option.mem_toList.1 hid)
  · exact knows_iff.2 (List.mem_filter.1 hid).1

/-- A node that is not known cannot be asked. -/
theorem run_visit_unknown {id : U64} (h : ¬ c.Knows id) (ids : List U64) (p : Progress A) :
    (c.visit replies line (id :: ids)).run p = (.error (.panic (.expect "no entry found for key")), p) := by
  have hnone : c.nodes.get id = none := Option.not_isSome_iff_eq_none.1 h
  have haddress : c.address id = .error (.panic (.expect "no entry found for key")) := by rw [address, hnone]
  rw [visit, haddress]
  rfl

/-- One call. -/
def Progress.call (p : Progress A) (address : A) (line : String) : Progress A :=
  { p with asked := p.asked ++ [(address, line)] }

theorem run_visit_cons (replies : Replies) (line : String) {id : U64} {address : A}
    (h : c.nodes.get id = some address) (ids : List U64) (p : Progress A) : (c.visit replies line (id :: ids)).run p =
      match replies p.asked.length with
      | .error _ => (c.visit replies line ids).run (Progress.call p address line)
      | .ok response =>
        match stripPrefix "REDIRECT " response with
        | some target => (.ok (.redirected (U64.parse target)), Progress.call p address line)
        | none =>
          if (stripPrefix "RETRY " response).isSome then
            (c.visit replies line ids).run (Progress.call p address line)
          else (.ok (.answered response), Progress.call p address line) := by
  have haddress : c.address id = .ok address := by rw [ClusterClient.address, h]
  rw [visit, haddress]
  change (match replies p.asked.length with
    | .error _ => c.visit replies line ids
    | .ok response => _ : Act (Progress A) Visit).run (Progress.call p address line) = _
  cases replies p.asked.length with
  | error e => rfl
  | ok response =>
    dsimp only
    cases stripPrefix "REDIRECT " response with
    | some target => rfl
    | none =>
      dsimp only
      split_ifs <;> rfl

/-- **The loop over known nodes** asks only them, until a reply is not passed. -/
theorem run_visit (replies : Replies) (line : String) {ids : List U64} (hids : ∀ id ∈ ids, c.Knows id)
    (hknown : c.AskedKnown p) :
    ∃ visited calls p', (c.visit replies line ids).run p = (.ok visited, p') ∧
      Visits replies p.asked.length ids.length visited calls ∧ p'.asked.length = p.asked.length + calls ∧
      p'.slept = p.slept ∧ c.AskedKnown p' := by
  induction ids generalizing p with
  | nil => exact ⟨.exhausted, 0, p, rfl, .exhausted fun i hi => absurd hi (Nat.not_lt_zero i), rfl, rfl, hknown⟩
  | cons id ids ih =>
    obtain ⟨hid, hids⟩ := List.forall_mem_cons.1 hids
    obtain ⟨address, haddress⟩ := Option.isSome_iff_exists.1 hid
    have hknown' : c.AskedKnown (Progress.call p address line) := by
      intro call hcall
      rcases List.mem_append.1 hcall with hcall | hcall
      · exact hknown call hcall
      · rw [List.mem_singleton.1 hcall]
        exact ⟨id, haddress⟩
    have hlen : (Progress.call p address line).asked.length = p.asked.length + 1 := List.length_append
    have hmore : Passed (replies p.asked.length) →
        (c.visit replies line (id :: ids)).run p = (c.visit replies line ids).run (Progress.call p address line) →
        ∃ visited calls p', (c.visit replies line (id :: ids)).run p = (.ok visited, p') ∧
          Visits replies p.asked.length (id :: ids).length visited calls ∧
          p'.asked.length = p.asked.length + calls ∧ p'.slept = p.slept ∧ c.AskedKnown p' := by
      intro hpassed hrun
      obtain ⟨visited, calls, p', hvisit, hv, hasked, hslept, hk⟩ := ih hids hknown'
      rw [hlen] at hv hasked
      exact ⟨visited, calls + 1, p', hrun.trans hvisit, hv.step hpassed, by omega, hslept, hk⟩
    have hrun := run_visit_cons replies line haddress ids p
    rcases reply_cases (replies p.asked.length) with hpassed | ⟨target, hredirect⟩ | ⟨response, hanswer⟩
    · refine hmore hpassed ?_
      rw [hrun]
      cases hreply : replies p.asked.length with
      | error e => rfl
      | ok response =>
        obtain ⟨hredirect, hretry⟩ := hpassed response hreply
        dsimp only
        rw [hredirect]
        exact if_pos hretry
    · obtain ⟨response, hreply, htarget⟩ := hredirect
      rw [hreply] at hrun
      dsimp only at hrun
      rw [htarget] at hrun
      exact ⟨_, 1, _, hrun, .redirected (j := 0) (Nat.succ_pos _) (fun i hi => absurd hi (Nat.not_lt_zero i))
        ⟨response, hreply, htarget⟩, hlen, rfl, hknown'⟩
    · obtain ⟨hreply, hredirect, hretry⟩ := hanswer
      rw [hreply] at hrun
      dsimp only at hrun
      rw [hredirect] at hrun
      dsimp only at hrun
      rw [if_neg (by simp [hretry])] at hrun
      exact ⟨_, 1, _, hrun, .answered (j := 0) (Nat.succ_pos _) (fun i hi => absurd hi (Nat.not_lt_zero i))
        ⟨hreply, hredirect, hretry⟩, hlen, rfl, hknown'⟩

/-! ### How a round ends -/

theorem run_rounds_answered {attempts delay : ℕ} {preferred : Option U64} {response : String} {p' : Progress A}
    (h : (c.visit replies line (c.order preferred)).run p = (.ok (.answered response), p')) :
    (c.rounds replies line (attempts + 1) preferred delay).run p = (.ok response, p') := by
  rw [rounds, Act.run_bind_ok h]
  rfl

theorem run_rounds_redirected (attempts delay : ℕ) {preferred target : Option U64} {p' : Progress A}
    (h : (c.visit replies line (c.order preferred)).run p = (.ok (.redirected target), p')) :
    (c.rounds replies line (attempts + 1) preferred delay).run p =
      (c.rounds replies line attempts target (min (delay * 2) 100)).run { p' with slept := p'.slept + delay } := by
  rw [rounds, Act.run_bind_ok h]
  rfl

theorem run_rounds_exhausted (attempts delay : ℕ) {preferred : Option U64} {p' : Progress A}
    (h : (c.visit replies line (c.order preferred)).run p = (.ok .exhausted, p')) :
    (c.rounds replies line (attempts + 1) preferred delay).run p =
      (c.rounds replies line attempts preferred (min (delay * 2) 100)).run
        { p' with slept := p'.slept + delay } := by
  rw [rounds, Act.run_bind_ok h]
  rfl

/-- The next round fails if the preferred node is not known. -/
theorem run_rounds_unknown {attempts delay : ℕ} {id : U64} (h : ¬ c.Knows id) (p : Progress A) :
    (c.rounds replies line (attempts + 1) (some id) delay).run p =
      (.error (.panic (.expect "no entry found for key")), p) := by
  rw [rounds]
  exact Act.run_bind_error (run_visit_unknown h _ p)

/-- How `request` may end: with an answer that was given, or with the error that there is none. -/
def Ends (replies : Replies) (result : Res String) (p : Progress A) : Prop :=
  (∃ response, result = .ok response ∧ ∃ k < p.asked.length, Answers (replies k) response) ∨
    result = Res.fail .timedOut "cluster: no majority leader answered"

/-- How rounds are expected to end that begin at `p`: within their calls and time, and with calls of
    known nodes only. -/
structure Settles (c : ClusterClient A) (replies : Replies) (attempts : ℕ) (p : Progress A)
    (r : Res String × Progress A) : Prop where
  ends : Ends replies r.1 r.2
  asked : r.2.asked.length ≤ p.asked.length + attempts * c.ids.length
  slept : r.2.slept ≤ p.slept + attempts * 100
  known : c.AskedKnown r.2

/-- One round more. -/
theorem Settles.round {attempts calls delay : ℕ} {p₁ : Progress A} {r : Res String × Progress A}
    (h : Settles c replies attempts { p₁ with slept := p₁.slept + delay } r)
    (hasked : p₁.asked.length = p.asked.length + calls) (hcalls : calls ≤ c.ids.length)
    (hslept : p₁.slept = p.slept) (hdelay : delay ≤ 100) : Settles c replies (attempts + 1) p r := by
  obtain ⟨hends, hle, hsleep, hknown⟩ := h
  dsimp only at hle hsleep
  have hmul : (attempts + 1) * c.ids.length = attempts * c.ids.length + c.ids.length := Nat.succ_mul _ _
  exact ⟨hends, by omega, by omega, hknown⟩

/-- The node that a reply has named is not known. -/
theorem parse_unknown {preferred : Option U64} (h : ¬ ∀ id, preferred = some id → c.Knows id) :
    ∃ id, preferred = some id ∧ ¬ c.Knows id := by
  push Not at h
  exact h

/-- **Without strays** the rounds come to an end. -/
theorem run_rounds (line : String) {attempts delay : ℕ} {preferred : Option U64}
    (hpreferred : attempts ≠ 0 → ∀ id, preferred = some id → c.Knows id) (hdelay : delay ≤ 100)
    (hknown : c.AskedKnown p) (hno : ¬ Strays c.Knows c.ids.length replies attempts p.asked.length) :
    Settles c replies attempts p ((c.rounds replies line attempts preferred delay).run p) := by
  induction attempts generalizing preferred delay p with
  | zero => exact ⟨Or.inr rfl, Nat.le_add_right _ _, Nat.le_add_right _ _, hknown⟩
  | succ attempts ih =>
    have hpref := hpreferred (Nat.succ_ne_zero attempts)
    obtain ⟨visited, calls, p₁, hvisit, hv, hasked, hslept, hknown₁⟩ :=
      run_visit replies line (knows_of_mem_order hpref) hknown
    rw [length_order hpref] at hv
    have hcalls := hv.calls_le
    have hnext : min (delay * 2) 100 ≤ 100 := min_le_right _ _
    cases hv with
    | exhausted hall =>
      have hno' : ¬ Strays c.Knows c.ids.length replies attempts p₁.asked.length := fun h =>
        hno (.passed hall (by rw [hasked] at h; exact h))
      rw [run_rounds_exhausted attempts delay hvisit]
      have hrest := ih (p := { p₁ with slept := p₁.slept + delay }) (fun _ => hpref) hnext hknown₁ hno'
      exact hrest.round hasked hcalls hslept hdelay
    | @redirected j target hj hall hredirect =>
      have hno' : ¬ Strays c.Knows c.ids.length replies attempts p₁.asked.length := fun h =>
        hno (.redirected hj hall hredirect (by rw [hasked] at h; exact h))
      have htarget : attempts ≠ 0 → ∀ id, U64.parse target = some id → c.Knows id := by
        intro hne id hid
        by_contra hunknown
        obtain ⟨more, rfl⟩ := Nat.exists_eq_succ_of_ne_zero hne
        exact hno (.here hj hall hredirect hid hunknown)
      rw [run_rounds_redirected attempts delay hvisit]
      have hrest := ih (p := { p₁ with slept := p₁.slept + delay }) htarget hnext hknown₁ hno'
      exact hrest.round hasked hcalls hslept hdelay
    | @answered j response hj hall hanswer =>
      have hmul : (attempts + 1) * c.ids.length = attempts * c.ids.length + c.ids.length := Nat.succ_mul _ _
      rw [run_rounds_answered hvisit]
      exact ⟨Or.inl ⟨response, rfl, p.asked.length + j, by dsimp only; omega, hanswer⟩, by dsimp only; omega,
        by dsimp only; omega, hknown₁⟩

/-- **With a stray** the client panics. -/
theorem run_rounds_strays {attempts delay : ℕ} {preferred : Option U64}
    (hpreferred : ∀ id, preferred = some id → c.Knows id) (hknown : c.AskedKnown p)
    (hstray : Strays c.Knows c.ids.length replies attempts p.asked.length) :
    ∃ q p', (c.rounds replies line attempts preferred delay).run p = (.error (.panic q), p') := by
  induction attempts generalizing preferred delay p with
  | zero => cases hstray
  | succ attempts ih =>
    obtain ⟨visited, calls, p₁, hvisit, hv, hasked, -, hknown₁⟩ :=
      run_visit replies line (knows_of_mem_order hpreferred) hknown
    rw [length_order hpreferred] at hv
    cases hv with
    | exhausted hall =>
      have hrun := run_rounds_exhausted attempts delay hvisit
      cases hstray with
      | here hj _ hredirect _ _ => exact absurd (hall _ hj) hredirect.not_passed
      | redirected hj _ hredirect _ => exact absurd (hall _ hj) hredirect.not_passed
      | passed _ hstray =>
        rw [← hasked] at hstray
        obtain ⟨q, p', hrest⟩ := ih (p := { p₁ with slept := p₁.slept + delay }) hpreferred hknown₁ hstray
        exact ⟨q, p', hrun.trans hrest⟩
    | @answered j response hj hall hanswer =>
      cases hstray with
      | here _ hall' hredirect _ _ =>
        obtain rfl := first_unique hall hanswer.not_passed hall' hredirect.not_passed
        exact absurd hredirect hanswer.not_redirects
      | redirected _ hall' hredirect _ =>
        obtain rfl := first_unique hall hanswer.not_passed hall' hredirect.not_passed
        exact absurd hredirect hanswer.not_redirects
      | passed hall' _ => exact absurd (hall' j hj) hanswer.not_passed
    | @redirected j target hj hall hredirect =>
      have hrun := run_rounds_redirected attempts delay hvisit
      cases hstray with
      | here _ hall' hredirect' htarget hunknown =>
        obtain rfl := first_unique hall hredirect.not_passed hall' hredirect'.not_passed
        obtain rfl := hredirect.unique hredirect'
        rw [htarget] at hrun
        exact ⟨_, _, hrun.trans (run_rounds_unknown hunknown _)⟩
      | passed hall' _ => exact absurd (hall' j hj) hredirect.not_passed
      | redirected _ hall' hredirect' hstray =>
        obtain rfl := first_unique hall hredirect.not_passed hall' hredirect'.not_passed
        rw [Nat.add_assoc, ← hasked] at hstray
        by_cases htarget : ∀ id, U64.parse target = some id → c.Knows id
        · obtain ⟨q, p', hrest⟩ := ih (p := { p₁ with slept := p₁.slept + delay }) htarget hknown₁ hstray
          exact ⟨q, p', hrun.trans hrest⟩
        · -- the name that the table does not have is looked up first
          obtain ⟨id, hid, hunknown⟩ := parse_unknown htarget
          obtain ⟨more, rfl⟩ : ∃ more, attempts = more + 1 := by
            cases hstray with
            | here _ _ _ _ _ => exact ⟨_, rfl⟩
            | passed _ _ => exact ⟨_, rfl⟩
            | redirected _ _ _ _ => exact ⟨_, rfl⟩
          rw [hid] at hrun
          exact ⟨_, _, hrun.trans (run_rounds_unknown hunknown _)⟩

/-! ## Requests -/

/-- What `request` is expected to do: it ends with an answer that was given or with the error that
    there is none, within its rounds, and asks only nodes of its table. -/
def Orderly (c : ClusterClient A) (replies : Replies) (line : String) : Prop :=
  Settles c replies c.attempts {} ((c.request replies line).run {})

/-- The first node of the table is preferred at first. -/
theorem knows_of_head (c : ClusterClient A) : ∀ id, c.ids.head? = some id → c.Knows id :=
  fun _ h => knows_iff.2 (List.mem_of_head? h)

theorem askedKnown_nil (c : ClusterClient A) : c.AskedKnown {} := fun _ h => absurd h List.not_mem_nil

theorem orderly_of_not_strays (line : String) (h : ¬ Strays c.Knows c.ids.length replies c.attempts 0) :
    c.Orderly replies line :=
  run_rounds line (fun _ => c.knows_of_head) (show 5 ≤ 100 by decide) c.askedKnown_nil h

/-- A client that strays has a panic for its result. -/
theorem run_request_strays (line : String) (h : Strays c.Knows c.ids.length replies c.attempts 0) :
    ∃ q p, (c.request replies line).run {} = (.error (.panic q), p) :=
  run_rounds_strays c.knows_of_head c.askedKnown_nil h

theorem not_orderly_of_strays (h : Strays c.Knows c.ids.length replies c.attempts 0) :
    ¬ c.Orderly replies line := by
  intro horderly
  have hends := horderly.ends
  obtain ⟨q, p, hpanic⟩ := run_request_strays line h
  rw [hpanic] at hends
  rcases hends with ⟨response, hresponse, -⟩ | htimeout
  · cases hresponse
  · cases htimeout

/-- **When a client keeps to its table**: exactly if no `REDIRECT` that is followed by another
    attempt names a node that the table does not have. -/
theorem request_orderly_iff (c : ClusterClient A) (replies : Replies) (line : String) :
    c.Orderly replies line ↔ ¬ Strays c.Knows c.ids.length replies c.attempts 0 :=
  ⟨fun h hstray => not_orderly_of_strays hstray h, orderly_of_not_strays line⟩

/-- A client that has only node 2 in its table is redirected to node 1. -/
theorem not_request_orderly :
    ¬ (new (SortedMap.empty.insert (2 : U64) "127.0.0.1:7102")).Orderly (fun _ => .ok "REDIRECT 1") "GET 61" := by
  have hredirect : Redirects (.ok "REDIRECT 1") "1" := ⟨_, rfl, stripPrefix_append "REDIRECT " "1"⟩
  have hparse : U64.parse "1" = some 1 := by decide
  refine not_orderly_of_strays (Strays.here (j := 0) (by decide) (fun i hi => absurd hi (Nat.not_lt_zero i))
    hredirect hparse ?_)
  simp [Knows, new]

/-- The table has every node that is named. -/
theorem not_strays_of_known {known : U64 → Prop} {n attempts k : ℕ}
    (h : ∀ i target id, Redirects (replies i) target → U64.parse target = some id → known id) :
    ¬ Strays known n replies attempts k := by
  intro hstray
  induction hstray with
  | here _ _ hredirect hid hunknown => exact hunknown (h _ _ _ hredirect hid)
  | passed _ _ ih => exact ih
  | redirected _ _ _ _ ih => exact ih

/-- A result of `request` is an answer that was given. -/
theorem request_ok {response : String} (h : (c.request replies line).run {} = (.ok response, p)) :
    ∃ k < p.asked.length, Answers (replies k) response := by
  by_cases hstray : Strays c.Knows c.ids.length replies c.attempts 0
  · obtain ⟨q, p', hpanic⟩ := run_request_strays line hstray
    rw [hpanic] at h
    cases h
  · have hends := (orderly_of_not_strays line hstray).ends
    rw [h] at hends
    rcases hends with ⟨response, hresponse, hanswer⟩ | htimeout
    · cases hresponse
      exact hanswer
    · cases htimeout

/-- A node has confirmed what `put` or `delete` reports as done. -/
theorem confirmed_ok {message : String}
    (h : (c.request replies line >>= confirmed message).run {} = (.ok (), p)) :
    ∃ k < p.asked.length, ∃ response, replies k = .ok response ∧ (stripPrefix "OK " response).isSome := by
  obtain ⟨response, p₁, hrequest, hconfirmed⟩ := Act.run_bind_eq_ok.1 h
  rw [confirmed] at hconfirmed
  split_ifs at hconfirmed with hok
  · cases hconfirmed
    obtain ⟨k, hk, hanswer⟩ := request_ok hrequest
    exact ⟨k, hk, response, hanswer.1, hok⟩
  · cases hconfirmed

theorem put_ok {key value : String} (h : (c.put replies key value).run {} = (.ok (), p)) :
    ∃ k < p.asked.length, ∃ response, replies k = .ok response ∧ (stripPrefix "OK " response).isSome :=
  confirmed_ok h

theorem delete_ok {key : String} (h : (c.delete replies key).run {} = (.ok (), p)) :
    ∃ k < p.asked.length, ∃ response, replies k = .ok response ∧ (stripPrefix "OK " response).isSome :=
  confirmed_ok h

/-- A node has given the value that `get` returns. -/
theorem get_ok {key : String} {value : Option String} (h : (c.get replies key).run {} = (.ok value, p)) :
    ∃ k < p.asked.length, ∃ response, replies k = .ok response ∧ readAnswer response = .ok value := by
  obtain ⟨response, p₁, hrequest, hread⟩ := Act.run_bind_eq_ok.1 h
  obtain ⟨k, hk, hanswer⟩ := request_ok hrequest
  obtain ⟨hvalue, rfl⟩ := Prod.mk.inj hread
  exact ⟨k, hk, response, hanswer.1, hvalue⟩

/-- `block` and `heal` do not panic, also for a node that is not in the table. -/
theorem returns_admin (c : ClusterClient A) (replies : Replies) (node : U64) (request : Request)
    (message : String) (p : Progress A) : Res.Returns ((c.admin replies node request message).run p).1 := by
  rw [admin]
  cases c.nodes.get node with
  | none => exact Res.returns_fail _ _
  | some address =>
    change Res.Returns (((match replies p.asked.length with
      | .error e => Act.lift (.error (.io e))
      | .ok response => if response = "OK" then pure () else Act.fail .invalidInput message :
      Act (Progress A) Unit)).run (Progress.call p address request.line)).1
    cases replies p.asked.length with
    | error e => exact Res.returns_fail e.kind e.message
    | ok response =>
      dsimp only
      split_ifs
      · exact Res.returns_ok ()
      · exact Res.returns_fail _ _

end ClusterClient

/-! ## Replies of servers -/

/-- The peers that a request asks, and those that it has found alive, are peers. -/
def Phase.Within (peers : List U64) : Phase → Prop
  | .pinging _ todo alive => todo ⊆ peers ∧ alive ⊆ peers
  | _ => True

section Servers
variable {s s' : Server} {ask : Ask} {phase phase' : Phase} {response : Res String} {line target : String}
  {op : Op}

theorem leader_mem (s : Server) (alive : List U64) : s.leader alive = s.id ∨ s.leader alive ∈ alive := by
  unfold leader
  generalize s.id = i
  induction alive generalizing i with
  | nil => exact Or.inl rfl
  | cons peer alive ih =>
    rw [List.foldl_cons]
    rcases ih (min i peer) with h | h
    · rcases min_choice i peer with hmin | hmin
      · exact Or.inl (by rw [h, hmin])
      · exact Or.inr (by rw [h, hmin]; exact List.mem_cons_self)
    · exact Or.inr (List.mem_cons_of_mem _ h)

theorem within_start (s : Server) (op : Op) : (s.start op).Within s.peers :=
  ⟨List.filter_subset_self _, List.nil_subset _⟩

/-- A phase goes on among the same peers. -/
theorem Phase.Within.receive {reply : Option String} (h : phase.Within s.peers)
    (hreceive : s.receive reply phase = (s', .goOn phase')) : s'.peers = s.peers ∧ phase'.Within s.peers := by
  unfold Server.receive at hreceive
  split at hreceive
  · obtain ⟨htodo, halive⟩ := h
    obtain ⟨hpeer, htodo⟩ := List.cons_subset.1 htodo
    split_ifs at hreceive
    · cases hreceive
      exact ⟨rfl, htodo, List.append_subset.2 ⟨halive, List.cons_subset.2 ⟨hpeer, List.nil_subset _⟩⟩⟩
    · cases hreceive
      exact ⟨rfl, htodo, halive⟩
  · split at hreceive
    · cases hreceive
      exact ⟨rfl, trivial⟩
    · split at hreceive
      · cases hreceive
      · split at hreceive
        · cases hreceive
          exact ⟨rfl, trivial⟩
        · cases hreceive
  · split_ifs at hreceive
    · cases hreceive
      exact ⟨rfl, trivial⟩
    · cases hreceive
      exact ⟨rfl, trivial⟩
  · split_ifs at hreceive
    · cases hreceive
      exact ⟨rfl, trivial⟩
    · cases hreceive
      exact ⟨rfl, trivial⟩
  · cases hreceive
    exact ⟨rfl, h⟩

theorem Phase.Within.advance (h : phase.Within s.peers) (hadvance : s.advance phase = (s', .goOn phase')) :
    s'.peers = s.peers ∧ phase'.Within s.peers := by
  unfold Server.advance at hadvance
  split at hadvance
  · split_ifs at hadvance
    · cases hadvance
    · cases hadvance
    · cases hadvance
      exact ⟨rfl, trivial⟩
  · cases hadvance
  · split at hadvance
    · cases hadvance
      exact ⟨rfl, trivial⟩
    · cases hadvance
  · split_ifs at hadvance
    · cases hadvance
    · split at hadvance
      · cases hadvance
        exact ⟨rfl, trivial⟩
      · cases hadvance
  · split_ifs at hadvance
    · cases hadvance
    · cases hadvance
  · cases hadvance
    exact ⟨rfl, h⟩

/-- A request that ends with an answer of a peer has failed. -/
theorem finish_of_receive {reply : Option String} (h : s.receive reply phase = (s', .finish response)) :
    ∃ e, response = .error e := by
  unfold receive at h
  split at h
  · split_ifs at h <;> cases h
  · split at h
    · cases h
    · split at h
      · cases h
        exact ⟨_, rfl⟩
      · split at h
        · cases h
        · cases h
          exact ⟨_, rfl⟩
  · split_ifs at h <;> cases h
  · split_ifs at h <;> cases h
  · cases h

/-- The end of a phase: a leader that is named is a peer. -/
theorem redirect_of_advance (hin : phase.Within s.peers) (h : s.advance phase = (s', .finish response))
    (hline : answerLine response = some line) (hredirect : stripPrefix "REDIRECT " line = some target) :
    ∃ peer ∈ s.peers, U64.parse target = some peer := by
  have hinit : initial line = some 'R' := initial_of_stripPrefix rfl hredirect
  have hother : ∀ {x}, initial line = some x → x ≠ 'R' → False := by
    intro x hx hne
    rw [hinit] at hx
    exact hne (Option.some.inj hx).symm
  have hretry : ∀ {retry}, stripPrefix "REDIRECT " retry = some target →
      stripPrefix "REDIRECT " retry = none → False := fun h h' => nomatch h.symm.trans h'
  unfold advance at h
  split at h
  · split_ifs at h with hleader
    · cases h
      cases hline
      rw [stripPrefix_append] at hredirect
      cases hredirect
      obtain hself | hmem := leader_mem s _
      · exact absurd hself hleader
      · exact ⟨_, hin.2 hmem, U64.parse_print _⟩
    · cases h
      cases hline
      exact (hretry hredirect rfl).elim
    · cases h
  · cases h
    cases hread : readRecord s.store _ with
    | error e =>
      rw [hread] at hline
      exact (hother (initial_error hline) (by decide)).elim
    | ok record =>
      rw [hread] at hline
      cases hline
      rcases Cluster.initial_readLine record with hline | hline
      · exact (hother hline (by decide)).elim
      · exact (hother hline (by decide)).elim
  · split at h
    · cases h
    · cases h
      exact (hother (initial_error hline) (by decide)).elim
  · split_ifs at h
    · cases h
      cases hline
      exact (hretry hredirect rfl).elim
    · split at h
      · cases h
      · cases h
        exact (hother (initial_error hline) (by decide)).elim
  · split_ifs at h
    · cases h
      cases hline
      exact (hother (initial_append (x := 'O') rfl) (by decide)).elim
    · cases h
      cases hline
      exact (hretry hredirect rfl).elim
  · cases h

/-- **A server names only its peers.** -/
theorem redirect_peer (h : AnsweredBy ask s phase s' response) (hin : phase.Within s.peers)
    (hline : answerLine response = some line) (hredirect : stripPrefix "REDIRECT " line = some target) :
    ∃ peer ∈ s.peers, U64.parse target = some peer := by
  induction h with
  | asked hask hreceive _ ih =>
    obtain ⟨hpeers, hin'⟩ := hin.receive hreceive
    rw [← hpeers] at hin' ⊢
    exact ih hin' hline
  | askedLast hask hreceive =>
    obtain ⟨e, rfl⟩ := finish_of_receive hreceive
    have hinit : initial line = some 'R' := initial_of_stripPrefix rfl hredirect
    rw [initial_error hline] at hinit
    cases hinit
  | advanced hask hadvance _ ih =>
    obtain ⟨hpeers, hin'⟩ := hin.advance hadvance
    rw [← hpeers] at hin' ⊢
    exact ih hin' hline
  | advancedLast hask hadvance => exact redirect_of_advance hin hadvance hline hredirect

/-- **A client that knows the peers of the servers** keeps to its table. -/
theorem orderly_of_servers {A : Type} {c : ClusterClient A} {replies : Replies}
    (h : ∀ k reply, replies k = .ok reply → ∃ ask s op s' response, AnsweredBy ask s (s.start op) s' response ∧
      answerLine response = some reply ∧ ∀ peer ∈ s.peers, c.Knows peer) (line : String) :
    c.Orderly replies line := by
  refine c.orderly_of_not_strays line (ClusterClient.not_strays_of_known ?_)
  rintro k target id ⟨reply, hreply, hredirect⟩ hid
  obtain ⟨ask, s, op, s', response, hrun, hline, hknown⟩ := h k reply hreply
  obtain ⟨peer, hpeer, hparse⟩ := redirect_peer hrun (within_start s op) hline hredirect
  rw [← Option.some.inj (hparse.symm.trans hid)]
  exact hknown peer hpeer

end Servers

end NutDb.Server
