/-
  Agreement of versions (`client_write`, `catch_up`, and the `REPL` and `COMMIT` of `handle`).

  Two servers may write at the same time, and nothing but the version of a record
  keeps their writes apart: a server answers `OK` to a `REPL` also when it keeps
  another record of that version, and a `COMMIT` marks whatever record it finds.
  In a run that `keeps` what is staged, a write that gets that far is chosen by a
  majority, and committed records of one version agree.

  `Agreed` is the invariant.  It is about the servers and about everything that is
  under way: what the answers say, what the frames carry, and what the tasks rely
  on.  `took` and `floor` are what a run remembers.
-/
import NutDb.Server.Connections
import NutDb.Server.Replicated

namespace NutDb.Server

open Lib

/-! ## Lines -/

section Lines
variable {line text : String}

/-- The first letter tells the answers apart. -/
def initial (line : String) : Option Char := line.toList.head?

theorem initial_append {a b : String} {x : Char} (h : initial a = some x) : initial (a ++ b) = some x := by
  rw [initial, List.head?_eq_some_iff] at h
  obtain ⟨rest, hrest⟩ := h
  rw [initial, String.toList_append, hrest]
  rfl

theorem initial_of_stripPrefix {start : String} {x : Char} (hx : initial start = some x)
    (h : stripPrefix start line = some text) : initial line = some x := by
  obtain ⟨rest, hrest⟩ := List.head?_eq_some_iff.1 hx
  unfold stripPrefix at h
  split_ifs at h with htake
  rw [hrest] at htake
  rw [initial]
  cases hl : line.toList with
  | nil =>
    rw [hl, List.take_nil] at htake
    cases htake
  | cons y ys =>
    have hpos : start.length = rest.length + 1 := by rw [← String.length_toList, hrest, List.length_cons]
    rw [hl, hpos, List.take_succ_cons] at htake
    rw [(List.cons.inj htake).1]
    rfl

/-- What failed is answered as an error. -/
theorem initial_error {e : Fault} (h : answerLine (.error e) = some line) : initial line = some 'E' := by
  cases e with
  | io e =>
    cases h
    exact initial_append rfl
  | panic m => cases h

theorem okLine_injective {version version' : U64} (h : "OK " ++ version.print = "OK " ++ version'.print) :
    version = version' := by
  have hprint : version.print = version'.print := String.append_right_inj "OK " |>.1 h
  have hparse := congrArg U64.parse hprint
  rw [U64.parse_print, U64.parse_print] at hparse
  exact Option.some.inj hparse

theorem ne_okLine {x : Char} (h : initial line = some x) (hx : x ≠ 'O') (version : U64) :
    line ≠ "OK " ++ version.print := by
  rintro rfl
  rw [initial_append (x := 'O') rfl] at h
  cases h
  exact hx rfl

end Lines

namespace Cluster

/-! ## What is said, carried and relied on -/

/-- What a run remembers: the records that servers took, and the versions that their records had when a
    request of a client was invoked. -/
structure Ghost where
  took : Took
  floor : ℕ → U64 → String → ℕ

/-- Distinct peers of a server. -/
structure Peers (ids : List U64) (i : U64) (l : List U64) : Prop where
  nodup : l.Nodup
  mem : ∀ n ∈ l, n ∈ ids ∧ n ≠ i

section Claims
variable (ids : List U64) (s : Replicas U64 String Content) (floor : U64 → String → ℕ)

/-- A dump has chosen records only. -/
def Tells (line : String) : Prop :=
  ∀ text rows, stripPrefix "DUMP " line = some text → decodeDump text = .ok rows →
    ∀ k r, (k, r) ∈ rows → r.committed = true ∧
      Replicas.Chosen ids.toFinset s k r.version.val (r.tombstone, r.value)

/-- What a request to a server promises: no record is staged with version zero, and a record that is to be
    committed is chosen, and backed by that server. -/
def Carries (n : U64) : Request → Prop
  | .repl _ version _ _ => 0 < version.val
  | .commit key version => ∃ content, Replicas.Chosen ids.toFinset s key version.val content ∧
      Replicas.Backs ids.toFinset s n key version.val content
  | _ => True

/-- What an `OK` of a peer means. -/
def Vouches (n : U64) : Request → Prop
  | .repl key version tombstone value =>
    Replicas.Backs ids.toFinset s n key version.val (tombstone, value) ∧ floor n key ≤ version.val
  | .commit key version => ∃ content, Replicas.Chosen ids.toFinset s key version.val content ∧
      Replicas.Settled s n key version.val content
  | _ => True

/-- The write is chosen, and the server and those that have acknowledged it have settled on it. -/
structure Committing (i : U64) (key : String) (version : U64) (content : Content) (todo : List U64)
    (acknowledgements : ℕ) : Prop where
  chosen : Replicas.Chosen ids.toFinset s key version.val content
  above : Majority ids.toFinset fun n => floor n key ≤ version.val
  own : Replicas.Settled s i key version.val content
  settled : ∃ acked : List U64, acknowledgements = acked.length + 1 ∧ Peers ids i (acked ++ todo) ∧
    (∀ n ∈ acked, Replicas.Settled s n key version.val content) ∧
    ∀ n ∈ todo, Replicas.Backs ids.toFinset s n key version.val content

/-- What a task relies on: how its phase belongs to the operation, and what the answers so far have given. -/
def Relies (i : U64) (op : Op) : Phase → Prop
  | .pinging op' todo alive => op' = op ∧ Peers ids i (alive ++ todo)
  | .catching op' alive _ => op' = op ∧ Peers ids i alive
  | .staging key record todo staged =>
    op = .write key record.value record.tombstone ∧ s.version i key < record.version.val ∧
      Peers ids i (staged ++ todo) ∧ ∀ n ∈ staged, Vouches ids s floor n
        (.repl key record.version record.tombstone record.value)
  | .committing key version todo acknowledgements => ∃ value tombstone, op = .write key value tombstone ∧
      Committing ids s floor i key version (tombstone, value) todo acknowledgements

/-- What the answer `OK version` to a write means. -/
def Ends (op : Op) (line : String) : Prop :=
  ∀ version : U64, line = "OK " ++ version.print → ∃ key value tombstone, op = .write key value tombstone ∧
    Replicas.Chosen ids.toFinset s key version.val (tombstone, value) ∧
    Majority ids.toFinset (fun n => Replicas.Settled s n key version.val (tombstone, value)) ∧
    Majority ids.toFinset fun n => floor n key ≤ version.val

end Claims

section Growth
variable {ids : List U64} {s s' : Replicas U64 String Content} {floor : U64 → String → ℕ} {n i : U64}
variable {line : String} {request : Request} {op : Op} {phase : Phase}

theorem Peers.sublist {l l' : List U64} (h : Peers ids i l) (hsub : l'.Sublist l) : Peers ids i l' :=
  ⟨hsub.nodup h.nodup, fun n hn => h.mem n (hsub.subset hn)⟩

/-- A server and more than half of the nodes, less one, of its peers. -/
theorem Peers.majority {l : List U64} {P : U64 → Prop} (h : Peers ids i l) (hids : ids.Nodup) (hi : i ∈ ids)
    (hlen : ids.length < (l.length + 1) * 2) (hown : P i) (hall : ∀ n ∈ l, P n) : Majority ids.toFinset P := by
  have hcard : (insert i l.toFinset).card = l.length + 1 := by
    rw [Finset.card_insert_of_notMem, List.toFinset_card_of_nodup h.nodup]
    rw [List.mem_toFinset]
    exact fun hn => (h.mem i hn).2 rfl
  refine ⟨insert i l.toFinset, fun n hn => ?_, ?_, fun n hn => ?_⟩
  · rcases Finset.mem_insert.1 hn with rfl | hn
    · exact List.mem_toFinset.2 hi
    · exact List.mem_toFinset.2 (h.mem n (List.mem_toFinset.1 hn)).1
  · rw [List.toFinset_card_of_nodup hids, hcard]
    omega
  · rcases Finset.mem_insert.1 hn with rfl | hn
    · exact hown
    · exact hall n (List.mem_toFinset.1 hn)

theorem Tells.mono (h : Tells ids s line) (ht : s.took ⊆ s'.took) : Tells ids s' line := by
  intro text rows htext hrows k r hr
  obtain ⟨hcom, hchosen⟩ := h text rows htext hrows k r hr
  exact ⟨hcom, hchosen.mono ht⟩

theorem tells_of_initial {x : Char} (h : initial line = some x) (hx : x ≠ 'D') : Tells ids s line := by
  intro text rows htext
  rw [initial_of_stripPrefix (x := 'D') rfl htext] at h
  cases h
  exact absurd rfl hx

theorem Carries.grows (h : Carries ids s n request) (hg : Replicas.Grows s s') : Carries ids s' n request := by
  cases request with
  | repl key version tombstone value => exact h
  | commit key version =>
    obtain ⟨content, hchosen, hbacks⟩ := h
    exact ⟨content, hchosen.mono hg.took, hbacks.grows hg⟩
  | _ => trivial

theorem Vouches.grows (h : Vouches ids s floor n request) (hs : Replicas.Sound ids.toFinset s')
    (hg : Replicas.Grows s s') : Vouches ids s' floor n request := by
  cases request with
  | repl key version tombstone value => exact ⟨h.1.grows hg, h.2⟩
  | commit key version =>
    obtain ⟨content, hchosen, hsettled⟩ := h
    have hchosen' := hchosen.mono hg.took
    exact ⟨content, hchosen', hs.settled_grows hg hchosen' hsettled⟩
  | _ => trivial

theorem Committing.grows {key : String} {version : U64} {content : Content} {todo : List U64} {acks : ℕ}
    (h : Committing ids s floor i key version content todo acks) (hs : Replicas.Sound ids.toFinset s')
    (hg : Replicas.Grows s s') : Committing ids s' floor i key version content todo acks := by
  have hchosen' := h.chosen.mono hg.took
  obtain ⟨acked, hacks, hpeers, hacked, htodo⟩ := h.settled
  exact ⟨hchosen', h.above, hs.settled_grows hg hchosen' h.own, acked, hacks, hpeers,
    fun n hn => hs.settled_grows hg hchosen' (hacked n hn), fun n hn => (htodo n hn).grows hg⟩

/-- What a task relies on stays, as long as its own server does not get a newer record. -/
theorem Relies.grows (h : Relies ids s floor i op phase) (hs : Replicas.Sound ids.toFinset s')
    (hg : Replicas.Grows s s') (hown : ∀ k, s'.version i k = s.version i k) :
    Relies ids s' floor i op phase := by
  cases phase with
  | pinging op' todo alive => exact h
  | catching op' alive todo => exact h
  | staging key record todo staged =>
    obtain ⟨hop, hver, hpeers, hstaged⟩ := h
    exact ⟨hop, (hown key).trans_lt hver, hpeers, fun n hn => (hstaged n hn).grows hs hg⟩
  | committing key version todo acknowledgements =>
    obtain ⟨value, tombstone, hop, hcom⟩ := h
    exact ⟨value, tombstone, hop, hcom.grows hs hg⟩

end Growth

/-! ## A server takes a frame -/

section Handling
variable {ids : List U64} {server : U64 → Server} {took : Took} {floor : U64 → String → ℕ} {n : U64}
variable {s : Server} {response : Res String} {request : Request} {frame : Bytes}

/-- What taking a frame does, and what the answer means. -/
structure Handles (ids : List U64) (server : U64 → Server) (took : Took) (n : U64) (frame : Bytes) (s : Server)
    (response : Res String) (took' : Took) : Prop where
  evolves : Evolves ids server took n s took'
  same : s.id = (server n).id ∧ s.peers = (server n).peers
  taken : ∀ x ∈ took', x ∈ took ∨ ∃ key version tombstone value,
    Request.parse frame = .ok (.repl key version tombstone value) ∧ x = (n, key, version.val, (tombstone, value))
  tells : ∀ {line}, answerLine response = some line → Tells ids (replicas server took) line
  answer : ∀ {line}, answerLine response = some line →
    line = "OK" ∨ initial line = some 'P' ∨ initial line = some 'D' ∨ initial line = some 'E'
  vouches : ∀ {request} {floor : U64 → String → ℕ}, Request.parse frame = .ok request →
    answerLine response = some "OK" → (∀ k, floor n k ≤ (replicas server took).version n k) →
    (∀ key version tombstone value, request = .repl key version tombstone value →
      stages (recordOf (server n).store key) version tombstone value = true) →
    Vouches ids (replicas (Function.update server n s) took') floor n request

/-- The request does not touch the store. -/
theorem Handles.plain (hread : Readable (server n).store)
    (hsound : Replicas.Sound ids.toFinset (replicas server took)) (hstore : s.store = (server n).store)
    (hsame : s.id = (server n).id ∧ s.peers = (server n).peers)
    (hline : ∀ {line}, answerLine response = some line → Tells ids (replicas server took) line ∧
      (line = "OK" ∨ initial line = some 'P' ∨ initial line = some 'D' ∨ initial line = some 'E'))
    (hvouches : answerLine response = some "OK" → ∀ {request}, Request.parse frame = .ok request →
      ∀ s' (floor : U64 → String → ℕ), Vouches ids s' floor n request) :
    Handles ids server took n frame s response took :=
  ⟨.of_same (hstore ▸ hread) hsound (by rw [hstore]), hsame, fun _ hx => Or.inl hx, fun hl => (hline hl).1,
    fun hl => (hline hl).2, fun hparse hok _ _ => hvouches hok hparse _ _⟩

/-- The request failed. -/
theorem Handles.failed (hread : Readable (server n).store)
    (hsound : Replicas.Sound ids.toFinset (replicas server took)) (e : Fault) :
    Handles ids server took n frame (server n) (.error e) took := by
  refine .plain hread hsound rfl ⟨rfl, rfl⟩ (fun hl => ?_) fun hok => ?_
  · exact ⟨tells_of_initial (initial_error hl) (by decide), Or.inr (Or.inr (Or.inr (initial_error hl)))⟩
  · have hinit := initial_error hok
    cases hinit

/-- `REPL`: an `OK` means that the record is backed, if the server did not keep another one. -/
theorem handles_repl (hread : Readable (server n).store)
    (hsound : Replicas.Sound ids.toFinset (replicas server took)) {key value : String} {version : U64}
    {tombstone : Bool} (hpos : 0 < version.val)
    (hparse : Request.parse frame = .ok (.repl key version tombstone value))
    (h : (server n).perform (.repl key version tombstone value) = (s, .done response)) :
    ∃ took', Handles ids server took n frame s response took' := by
  change (server n).stored _ = _ at h
  cases hmerge : merge (server n).store key ⟨version, tombstone, false, value⟩ with
  | error e =>
    rw [hmerge] at h
    cases h
    exact ⟨took, .failed hread hsound e⟩
  | ok m =>
    rw [hmerge] at h
    cases h
    have hline : ∀ {line}, answerLine (.ok "OK") = some line → line = "OK" := fun h => (Option.some.inj h).symm
    rcases evolves_stage (s := { server n with store := m }) hread hsound rfl hpos rfl hmerge with
      ⟨hver, hev⟩ | ⟨hev, current, hcur, hge⟩
    · refine ⟨_, hev, ⟨rfl, rfl⟩, fun x hx => ?_, fun hl => ?_, fun hl => Or.inl (hline hl), ?_⟩
      · rcases hx with rfl | hx
        · exact Or.inr ⟨key, version, tombstone, value, hparse, rfl⟩
        · exact Or.inl hx
      · exact tells_of_initial (x := 'O') (by rw [hline hl]; rfl) (by decide)
      · intro request floor hparse' _ hfloor _
        rw [hparse] at hparse'
        cases hparse'
        have hmem : (n, key, version.val, (tombstone, value)) ∈
            insert (n, key, version.val, (tombstone, value)) took := Set.mem_insert _ _
        exact ⟨⟨hev.sound.reached hmem, Or.inl hmem⟩, (hfloor key).trans hver.le⟩
    · refine ⟨_, hev, ⟨rfl, rfl⟩, fun x hx => Or.inl hx, fun hl => ?_, fun hl => Or.inl (hline hl), ?_⟩
      · exact tells_of_initial (x := 'O') (by rw [hline hl]; rfl) (by decide)
      · intro request floor hparse' _ hfloor hkeeps
        rw [hparse] at hparse'
        cases hparse'
        have hst := hkeeps key version tombstone value rfl
        rw [hcur, stages, Option.all_some, Bool.or_eq_true, decide_eq_true_eq, decide_eq_true_eq] at hst
        rcases hst with hlt | ⟨rfl, rfl, rfl⟩
        · exact absurd hlt (not_lt.2 hge)
        · have hrec := record_replicas took hcur
          refine ⟨(hsound.backs_of_record hrec).grows hev.grows, ?_⟩
          exact (hfloor key).trans_eq (Replicas.version_of_record hrec)

/-- `COMMIT`: an `OK` means that the server has settled on the chosen record. -/
theorem handles_commit (hread : Readable (server n).store)
    (hsound : Replicas.Sound ids.toFinset (replicas server took)) {key : String} {version : U64}
    (hcarries : Carries ids (replicas server took) n (.commit key version))
    (hparse : Request.parse frame = .ok (.commit key version))
    (h : (server n).perform (.commit key version) = (s, .done response)) :
    Handles ids server took n frame s response took := by
  change (server n).stored _ = _ at h
  obtain ⟨content, hchosen, hbacks⟩ := hcarries
  cases hcommit : commitRecord (server n).store key version with
  | error e =>
    rw [hcommit] at h
    cases h
    exact .failed hread hsound e
  | ok m =>
    rw [hcommit] at h
    cases h
    have hline : ∀ {line}, answerLine (.ok "OK") = some line → line = "OK" := fun h => (Option.some.inj h).symm
    obtain ⟨hev, hsettled⟩ := evolves_commit (s := { server n with store := m }) hread hsound hchosen hbacks
      rfl hcommit
    refine ⟨hev, ⟨rfl, rfl⟩, fun x hx => Or.inl hx, fun hl => ?_, fun hl => Or.inl (hline hl), ?_⟩
    · exact tells_of_initial (x := 'O') (by rw [hline hl]; rfl) (by decide)
    · intro request floor hparse' _ _ _
      rw [hparse] at hparse'
      cases hparse'
      exact ⟨content, hchosen.mono hev.grows.took, hsettled⟩

/-- `DUMP`: the rows are the committed records. -/
theorem tells_dump (hread : Readable (server n).store)
    (hsound : Replicas.Sound ids.toFinset (replicas server took)) {line : String}
    (hline : answerLine ((dump (server n).store).map fun rows => "DUMP " ++ rows) = some line) :
    Tells ids (replicas server took) line ∧ initial line = some 'D' := by
  obtain ⟨text, rows, hdump, hdecode, hmem⟩ := Decodes.dump hread
  rw [hdump] at hline
  cases hline
  refine ⟨?_, initial_append rfl⟩
  intro text' rows' htext hrows k r hr
  rw [stripPrefix_append] at htext
  cases htext
  rw [hdecode] at hrows
  cases hrows
  obtain ⟨hrec, hcom⟩ := (hmem k r).1 hr
  exact ⟨hcom, hsound.chosen (record_replicas took hrec) hcom⟩

/-- **Taking a frame.** -/
theorem handles (hread : Readable (server n).store)
    (hsound : Replicas.Sound ids.toFinset (replicas server took))
    (hcarries : ∀ {request}, Request.parse frame = .ok request → Carries ids (replicas server took) n request)
    (h : (server n).handle frame = (s, .done response)) :
    ∃ took', Handles ids server took n frame s response took' := by
  unfold handle at h
  cases hparse : Request.parse frame with
  | error e =>
    rw [hparse] at h
    cases h
    exact ⟨took, .failed hread hsound e⟩
  | ok request =>
    rw [hparse] at h
    cases request with
    | ping =>
      cases h
      refine ⟨took, .plain hread hsound rfl ⟨rfl, rfl⟩ (fun hl => ?_) fun _ => ?_⟩
      · cases hl
        exact ⟨tells_of_initial (initial_append rfl) (x := 'P') (by decide),
          Or.inr (Or.inl (initial_append rfl))⟩
      · rw [hparse]
        rintro _ ⟨⟩
        exact fun _ _ => trivial
    | dump =>
      cases h
      refine ⟨took, .plain hread hsound rfl ⟨rfl, rfl⟩ (fun hl => ?_) fun _ => ?_⟩
      · obtain ⟨htells, hinit⟩ := tells_dump hread hsound hl
        exact ⟨htells, Or.inr (Or.inr (Or.inl hinit))⟩
      · rw [hparse]
        rintro _ ⟨⟩
        exact fun _ _ => trivial
    | repl key version tombstone value => exact handles_repl hread hsound (hcarries hparse) hparse h
    | commit key version => exact ⟨took, handles_commit hread hsound (hcarries hparse) hparse h⟩
    | put key value => cases h
    | delete key => cases h
    | get key => cases h
    | adminBlock peer =>
      cases h
      refine ⟨took, .plain hread hsound rfl ⟨rfl, rfl⟩ (fun hl => ?_) fun _ => ?_⟩
      · cases hl
        exact ⟨tells_of_initial (x := 'O') rfl (by decide), Or.inl rfl⟩
      · rw [hparse]
        rintro _ ⟨⟩
        exact fun _ _ => trivial
    | adminHeal =>
      cases h
      refine ⟨took, .plain hread hsound rfl ⟨rfl, rfl⟩ (fun hl => ?_) fun _ => ?_⟩
      · cases hl
        exact ⟨tells_of_initial (x := 'O') rfl (by decide), Or.inl rfl⟩
      · rw [hparse]
        rintro _ ⟨⟩
        exact fun _ _ => trivial

end Handling

/-! ## A server goes on with a task -/

section Working
variable {ids : List U64} {server : U64 → Server} {took : Took} {floor : U64 → String → ℕ} {i : U64}
variable {s : Server} {next : Next} {op : Op} {phase : Phase} {response : Option String}

/-- What a server is in a cluster. -/
structure Node (ids : List U64) (i : U64) (s : Server) : Prop where
  id : s.id = i
  peers : s.peers = ids.filter fun peer => decide (peer ≠ i)
  readable : Readable s.store

/-- What going on with a task does: the next phase has what it relies on, or the answer means what it says. -/
structure Goes (ids : List U64) (server : U64 → Server) (took : Took) (floor : U64 → String → ℕ) (i : U64)
    (op : Op) (phase : Phase) (p : Server × Next) (took' : Took) : Prop where
  evolves : Evolves ids server took i p.1 took'
  same : p.1.id = (server i).id ∧ p.1.peers = (server i).peers
  taken : ∀ x ∈ took', x ∈ took ∨ ∃ key record todo staged, phase = .staging key record todo staged ∧
    x = (i, key, record.version.val, (record.tombstone, record.value))
  goOn : ∀ {phase'}, p.2 = .goOn phase' →
    Relies ids (replicas (Function.update server i p.1) took') floor i op phase'
  finish : ∀ {response line}, p.2 = .finish response → answerLine response = some line →
    Tells ids (replicas (Function.update server i p.1) took') line ∧
      Ends ids (replicas (Function.update server i p.1) took') floor op line

/-- An answer that is neither a dump nor `OK`. -/
theorem plain_line {s : Replicas U64 String Content} {line : String} {x : Char} (h : initial line = some x)
    (hx : x ≠ 'D' ∧ x ≠ 'O') : Tells ids s line ∧ Ends ids s floor op line := by
  exact ⟨tells_of_initial h hx.1, fun version hline => absurd hline (ne_okLine h hx.2 version)⟩

/-- The server waits for the next peer, or has heard from all. -/
theorem Goes.on (hnode : Node ids i (server i))
    (hsound : Replicas.Sound ids.toFinset (replicas server took)) {phase' : Phase}
    (h : Relies ids (replicas server took) floor i op phase') :
    Goes ids server took floor i op phase (server i, .goOn phase') took := by
  refine ⟨.of_same hnode.readable hsound rfl, ⟨rfl, rfl⟩, fun _ hx => Or.inl hx, fun heq => ?_,
    fun heq => (nomatch heq)⟩
  cases heq
  rwa [replicas_of_same rfl]

/-- The server answers without having changed anything. -/
theorem Goes.line (hnode : Node ids i (server i))
    (hsound : Replicas.Sound ids.toFinset (replicas server took)) {result : Res String}
    (h : ∀ {line}, answerLine result = some line →
      Tells ids (replicas server took) line ∧ Ends ids (replicas server took) floor op line) :
    Goes ids server took floor i op phase (server i, .finish result) took := by
  refine ⟨.of_same hnode.readable hsound rfl, ⟨rfl, rfl⟩, fun _ hx => Or.inl hx, fun heq => (nomatch heq),
    fun heq hline => ?_⟩
  cases heq
  rw [replicas_of_same rfl]
  exact h hline

/-- `catch_up`, with one dump. -/
theorem goes_catching (hnode : Node ids i (server i))
    (hsound : Replicas.Sound ids.toFinset (replicas server took)) {op' : Op} {peer : U64} {alive todo : List U64}
    (hrelies : op' = op ∧ Peers ids i alive)
    (htells : ∀ line, response = some line → Tells ids (replicas server took) line) :
    Goes ids server took floor i op phase ((server i).receive response (.catching op' alive (peer :: todo))) took := by
  simp only [receive]
  cases htext : response.bind (stripPrefix "DUMP ") with
  | none => exact .on hnode hsound hrelies
  | some text =>
    obtain ⟨line, rfl, hstrip⟩ := Option.bind_eq_some_iff.1 htext
    dsimp only
    cases hrows : decodeDump text with
    | error e => exact .line hnode hsound fun hl => plain_line (initial_error hl) (by decide)
    | ok rows =>
      have hev : ∀ s : Server, s.store = (mergeAll (server i).store rows).1 →
          Evolves ids server took i s took := fun s hs =>
        evolves_mergeAll hnode.readable hsound (fun k r hr => htells line rfl text rows hstrip hrows k r hr) hs
      dsimp only
      cases hall : mergeAll (server i).store rows with
      | mk m result =>
        rw [hall] at hev
        cases result with
        | ok u =>
          refine ⟨hev _ rfl, ⟨rfl, rfl⟩, fun _ hx => Or.inl hx, fun heq => ?_, fun heq => (nomatch heq)⟩
          cases heq
          exact hrelies
        | error e =>
          refine ⟨hev _ rfl, ⟨rfl, rfl⟩, fun _ hx => Or.inl hx, fun heq => (nomatch heq), fun heq hl => ?_⟩
          cases heq
          exact plain_line (initial_error hl) (by decide)

/-- **An answer, or none.** -/
theorem goes_receive (response : Option String) (hnode : Node ids i (server i))
    (hsound : Replicas.Sound ids.toFinset (replicas server took))
    (hrelies : Relies ids (replicas server took) floor i op phase)
    (htells : ∀ line, response = some line → Tells ids (replicas server took) line)
    (hvouches : ∀ {peer request}, phase.ask = some (peer, request) → response = some "OK" →
      Vouches ids (replicas server took) floor peer request) :
    Goes ids server took floor i op phase ((server i).receive response phase) took := by
  cases phase with
  | pinging op' todo alive =>
    cases todo with
    | nil => exact .on hnode hsound hrelies
    | cons peer todo =>
      simp only [receive]
      split_ifs with hpong
      · refine .on hnode hsound ⟨hrelies.1, ?_⟩
        rw [List.append_assoc]
        exact hrelies.2
      · refine .on hnode hsound ⟨hrelies.1, hrelies.2.sublist ?_⟩
        exact (List.Sublist.refl alive).append (List.sublist_cons_self peer todo)
  | catching op' alive todo =>
    cases todo with
    | nil => exact .on hnode hsound hrelies
    | cons peer todo => exact goes_catching hnode hsound hrelies htells
  | staging key record todo staged =>
    cases todo with
    | nil => exact .on hnode hsound hrelies
    | cons peer todo =>
      obtain ⟨hop, hver, hpeers, hstaged⟩ := hrelies
      simp only [receive]
      split_ifs with hok
      · refine .on hnode hsound ⟨hop, hver, ?_, fun n hn => ?_⟩
        · rw [List.append_assoc]
          exact hpeers
        · rcases List.mem_append.1 hn with hn | hn
          · exact hstaged n hn
          · rw [List.mem_singleton.1 hn]
            exact hvouches rfl hok
      · refine .on hnode hsound ⟨hop, hver, hpeers.sublist ?_, hstaged⟩
        exact (List.Sublist.refl staged).append (List.sublist_cons_self peer todo)
  | committing key version todo acknowledgements =>
    cases todo with
    | nil => exact .on hnode hsound hrelies
    | cons peer todo =>
      obtain ⟨value, tombstone, hop, hcom⟩ := hrelies
      obtain ⟨acked, hacks, hpeers, hacked, htodo⟩ := hcom.settled
      have htodo' : ∀ n ∈ todo, Replicas.Backs ids.toFinset (replicas server took) n key version.val
          (tombstone, value) := fun n hn => htodo n (List.mem_cons_of_mem _ hn)
      simp only [receive]
      split_ifs with hok
      · refine .on hnode hsound ⟨value, tombstone, hop, hcom.chosen, hcom.above, hcom.own, acked ++ [peer],
          ?_, ?_, fun n hn => ?_, htodo'⟩
        · rw [hacks, List.length_append, List.length_singleton]
        · rw [List.append_assoc]
          exact hpeers
        · rcases List.mem_append.1 hn with hn | hn
          · exact hacked n hn
          · obtain ⟨content, hchosen, hsettled⟩ := hvouches rfl hok
            rw [List.mem_singleton.1 hn, ← hsound.chosen_unique hchosen hcom.chosen]
            exact hsettled
      · refine .on hnode hsound ⟨value, tombstone, hop, hcom.chosen, hcom.above, hcom.own, acked, hacks,
          hpeers.sublist ?_, hacked, htodo'⟩
        exact (List.Sublist.refl acked).append (List.sublist_cons_self peer todo)

/-- `client_write` picks the next version. -/
theorem nextRecord_spec (hread : Readable s.store) {key value : String} {tombstone : Bool}
    {record : ReplicaValue} (h : s.nextRecord key value tombstone = .ok record) :
    record.version.val = (versionOf s.store key).val + 1 ∧ record.tombstone = tombstone ∧
      record.value = value ∧ record.committed = false := by
  rw [nextRecord, hread.read key, Res.ok_bind] at h
  obtain ⟨version, hver, h⟩ := Res.bind_eq_ok.1 h
  cases h
  exact ⟨U64.checkedAdd_eq_some.1 (Res.ofOption_eq_ok.1 hver), rfl, rfl, rfl⟩

/-- The write of a server, when enough peers have staged it. -/
theorem goes_staging (hids : ids.Nodup) (hi : i ∈ ids) (hnode : Node ids i (server i))
    (hsound : Replicas.Sound ids.toFinset (replicas server took))
    (hfloor : ∀ k, floor i k ≤ (replicas server took).version i k) {key : String} {record : ReplicaValue}
    {staged : List U64} (hrelies : Relies ids (replicas server took) floor i op (.staging key record [] staged))
    (hlen : ids.length < (staged.length + 1) * 2) {m : Records}
    (hmerge : merge (server i).store key { record with committed := true } = .ok m) :
    ∃ took', Goes ids server took floor i op (.staging key record [] staged)
      ({ server i with store := m }, .goOn (.committing key record.version staged 1)) took' := by
  obtain ⟨hop, hver, hpeers, hstaged⟩ := hrelies
  rw [List.append_nil] at hpeers
  have htake := Replicas.Grows.take (r := { record with committed := true : ReplicaValue }.versioned) hver
  have hchosen : Replicas.Chosen ids.toFinset
      ((replicas server took).take i key { record with committed := true : ReplicaValue }.versioned) key
      record.version.val (record.tombstone, record.value) := by
    refine Replicas.Sound.chosen_of_backs (hpeers.majority hids hi hlen ⟨?_, Or.inl ?_⟩ fun n hn => ?_)
    · rw [Replicas.version_take_self]
      exact le_rfl
    · exact Set.mem_insert _ _
    · exact (hstaged n hn).1.grows htake
  obtain ⟨hev, hrec⟩ := evolves_take (s := { server i with store := m }) { record with committed := true }
    hnode.readable hsound hver (fun _ => hchosen) rfl hmerge
  have hown : (replicas (Function.update server i { server i with store := m })
      (insert (i, key, record.version.val, (record.tombstone, record.value)) took)).record i key =
      some ⟨record.version.val, true, (record.tombstone, record.value)⟩ := by
    refine record_replicas (r := { record with committed := true }) _ ?_
    rw [Function.update_self]
    exact hrec
  have hcards : Majority ids.toFinset fun n => floor n key ≤ record.version.val :=
    hpeers.majority hids hi hlen ((hfloor key).trans hver.le) fun n hn => (hstaged n hn).2
  refine ⟨_, hev, ⟨rfl, rfl⟩, fun x hx => ?_, fun heq => ?_, fun heq => (nomatch heq)⟩
  · rcases hx with rfl | hx
    · exact Or.inr ⟨key, record, [], staged, rfl, rfl⟩
    · exact Or.inl hx
  · cases heq
    refine ⟨record.value, record.tombstone, hop, ?_, hcards, Or.inl ?_, [], rfl, hpeers, fun n hn => (nomatch hn),
      fun n hn => (hstaged n hn).1.grows hev.grows⟩
    · exact hev.sound.chosen hown rfl
    · exact hown

/-- The answer of a read is neither a dump nor `OK`. -/
theorem initial_readLine (record : Option ReplicaValue) :
    initial (readLine record) = some 'N' ∨ initial (readLine record) = some 'V' := by
  cases record with
  | none => exact Or.inl rfl
  | some r =>
    rw [readLine]
    split_ifs
    · exact Or.inr (initial_append rfl)
    · exact Or.inl rfl

/-- **The end of a phase.** -/
theorem goes_advance (hids : ids.Nodup) (hi : i ∈ ids) (hnode : Node ids i (server i))
    (hsound : Replicas.Sound ids.toFinset (replicas server took))
    (hfloor : ∀ k, floor i k ≤ (replicas server took).version i k)
    (hrelies : Relies ids (replicas server took) floor i op phase) (hask : phase.ask = none) :
    ∃ took', Goes ids server took floor i op phase ((server i).advance phase) took' := by
  have hlen : (server i).peers.length + 1 = ids.length := by
    rw [hnode.peers]
    exact length_others hids hi
  cases phase with
  | pinging op' todo alive =>
    cases todo with
    | cons peer todo => cases hask
    | nil =>
      obtain ⟨hop, hpeers⟩ := hrelies
      rw [List.append_nil] at hpeers
      simp only [advance]
      split_ifs with hleader hquorum
      · refine ⟨took, .line hnode hsound fun hl => ?_⟩
        cases hl
        exact plain_line (initial_append (x := 'R') rfl) (by decide)
      · refine ⟨took, .line hnode hsound fun hl => ?_⟩
        cases hl
        exact plain_line (x := 'R') rfl (by decide)
      · exact ⟨took, .on hnode hsound ⟨hop, hpeers⟩⟩
  | catching op' alive todo =>
    cases todo with
    | cons peer todo => cases hask
    | nil =>
      obtain ⟨rfl, hpeers⟩ := hrelies
      cases op' with
      | read key =>
        refine ⟨took, .line hnode hsound fun hl => ?_⟩
        rw [hnode.readable.read key] at hl
        cases hl
        rcases initial_readLine (recordOf (server i).store key) with hinit | hinit
        · exact plain_line hinit (by decide)
        · exact plain_line hinit (by decide)
      | write key value tombstone =>
        simp only [advance]
        cases hnext : (server i).nextRecord key value tombstone with
        | error e =>
          exact ⟨took, .line hnode hsound fun hl => plain_line (initial_error hl) (by decide)⟩
        | ok record =>
          obtain ⟨hver, rfl, rfl, -⟩ := nextRecord_spec hnode.readable hnext
          refine ⟨took, .on hnode hsound ⟨rfl, ?_, hpeers, fun n hn => (nomatch hn)⟩⟩
          rw [version_replicas, hver]
          exact Nat.lt_succ_self _
  | staging key record todo staged =>
    cases todo with
    | cons peer todo => cases hask
    | nil =>
      simp only [advance]
      split_ifs with hquorum
      · refine ⟨took, .line hnode hsound fun hl => ?_⟩
        cases hl
        exact plain_line (x := 'R') rfl (by decide)
      · cases hmerge : merge (server i).store key { record with committed := true } with
        | error e =>
          exact ⟨took, .line hnode hsound fun hl => plain_line (initial_error hl) (by decide)⟩
        | ok m => exact goes_staging hids hi hnode hsound hfloor hrelies (by omega) hmerge
  | committing key version todo acknowledgements =>
    cases todo with
    | cons peer todo => cases hask
    | nil =>
      obtain ⟨value, tombstone, hop, hcom⟩ := hrelies
      obtain ⟨acked, hacks, hpeers, hacked, -⟩ := hcom.settled
      rw [List.append_nil] at hpeers
      simp only [advance]
      split_ifs with hquorum
      · refine ⟨took, .line hnode hsound fun hl => ?_⟩
        cases hl
        refine ⟨tells_of_initial (initial_append (x := 'O') rfl) (by decide), fun version' heq => ?_⟩
        rw [← okLine_injective heq]
        exact ⟨key, value, tombstone, hop, hcom.chosen,
          hpeers.majority hids hi (by omega) hcom.own hacked, hcom.above⟩
      · refine ⟨took, .line hnode hsound fun hl => ?_⟩
        cases hl
        exact plain_line (x := 'R') rfl (by decide)

end Working

/-! ## The invariant -/

/-- A task has what it relies on, and the answer that it waits for will mean what it says. -/
structure Backed (ids : List U64) (c : Cluster) (g : Ghost) (i : U64) (t : Task) : Prop where
  relies : ∃ op, Invoked c t.conn op ∧ Relies ids (replicas c.server g.took) (g.floor t.conn) i op t.phase
  vouches : ∀ {q peer request}, t.waiting = some q → t.phase.ask = some (peer, request) →
    .answered q "OK" ∈ c.log → Vouches ids (replicas c.server g.took) (g.floor t.conn) peer request

/-- The servers agree, and so does all that is under way. -/
structure Agreed (ids : List U64) (c : Cluster) (g : Ghost) : Prop where
  node : ∀ i, Node ids i (c.server i)
  sound : Replicas.Sound ids.toFinset (replicas c.server g.took)
  floor : ∀ q n k, g.floor q n k ≤ (replicas c.server g.took).version n k
  carries : ∀ {e request}, e ∈ c.envelopes → Request.parse e.frame = .ok request →
    Carries ids (replicas c.server g.took) e.target request
  tells : ∀ {q line}, .answered q line ∈ c.log → Tells ids (replicas c.server g.took) line
  task : ∀ {i t}, c.task i = some t → Backed ids c g i t

section Invariant
variable {ids : List U64} {c c' : Cluster} {g g' : Ghost} {event : Event}

theorem Invoked.mono {q : ℕ} {op : Op} (h : Invoked c q op) (hsub : c.log ⊆ c'.log) : Invoked c' q op := by
  obtain ⟨frame, request, hlog, hparse⟩ := h
  exact ⟨frame, request, hsub hlog, hparse⟩

theorem Agreed.start (ids : List U64) : Agreed ids (start ids) ⟨∅, fun _ _ _ => 0⟩ := by
  have hnone : ∀ n k, (replicas (Cluster.start ids).server ∅).record n k = none := fun n k => rfl
  refine ⟨fun i => ⟨rfl, rfl, Decodes.readable Decodes.empty⟩, ?_, fun _ _ _ => Nat.zero_le _,
    fun he => (nomatch he), fun hx => (nomatch hx), fun ht => (nomatch ht)⟩
  refine ⟨fun ht => (nomatch ht), fun ht => (nomatch ht), fun ht => (nomatch ht), fun hr => ?_, fun hr => ?_⟩
  · rw [hnone] at hr
    cases hr
  · rw [hnone] at hr
    cases hr

/-- What a step has to show: what it changes, and that the rest has grown. -/
theorem Agreed.next (h : Agreed ids c g) (hnode : ∀ i, Node ids i (c'.server i))
    (hsound : Replicas.Sound ids.toFinset (replicas c'.server g'.took))
    (hgrows : Replicas.Grows (replicas c.server g.took) (replicas c'.server g'.took))
    (hfloor : ∀ q n k, g'.floor q n k ≤ (replicas c'.server g'.took).version n k)
    (hlog : c.log ⊆ c'.log)
    (hcarries : ∀ {e request}, e ∈ c'.envelopes → Request.parse e.frame = .ok request →
      e ∈ c.envelopes ∨ Carries ids (replicas c'.server g'.took) e.target request)
    (htells : ∀ {q line}, .answered q line ∈ c'.log → .answered q line ∈ c.log ∨
      Tells ids (replicas c'.server g'.took) line)
    (htask : ∀ {i t}, c'.task i = some t → Backed ids c' g' i t ∨ c.task i = some t ∧
      g'.floor t.conn = g.floor t.conn ∧ c'.server i = c.server i ∧
      ∀ {q peer request}, t.waiting = some q → t.phase.ask = some (peer, request) → .answered q "OK" ∈ c'.log →
        .answered q "OK" ∈ c.log ∨ Vouches ids (replicas c'.server g'.took) (g.floor t.conn) peer request) :
    Agreed ids c' g' := by
  refine ⟨hnode, hsound, hfloor, fun he hparse => ?_, fun hx => ?_, fun {i t} ht => ?_⟩
  · rcases hcarries he hparse with he | hcar
    · exact (h.carries he hparse).grows hgrows
    · exact hcar
  · rcases htells hx with hx | htell
    · exact (h.tells hx).mono hgrows.took
    · exact htell
  · rcases htask ht with hb | ⟨hold, hfl, hserver, hnew⟩
    · exact hb
    · obtain ⟨⟨op, hop, hrelies⟩, hvouches⟩ := h.task hold
      refine ⟨⟨op, hop.mono hlog, ?_⟩, fun hq hask hok => ?_⟩
      · rw [hfl]
        refine hrelies.grows hsound hgrows fun k => ?_
        rw [version_replicas, version_replicas, hserver]
      · rw [hfl]
        rcases hnew hq hask hok with hok | hv
        · exact (hvouches hq hask hok).grows hsound hgrows
        · exact hv

theorem carries_of_client {s : Replicas U64 String Content} {n target : U64} {frame : Bytes} {request : Request}
    (hclient : clients (.invoke target frame) = true) (hparse : Request.parse frame = .ok request) :
    Carries ids s n request := by
  cases request with
  | repl key version tombstone value =>
    rw [clients, hparse] at hclient
    cases hclient
  | commit key version =>
    rw [clients, hparse] at hclient
    cases hclient
  | _ => trivial

/-- A client sends a request. -/
theorem Agreed.invoke (h : Agreed ids c g) (hl : Linked ids c) (target : U64) (frame : Bytes)
    (hclient : clients (.invoke target frame) = true) :
    Agreed ids (c.invoke target frame) ⟨g.took, Function.update g.floor c.next
      (replicas c.server g.took).version⟩ := by
  refine h.next h.node h.sound (.refl _) (fun q n k => ?_) (List.subset_append_left _ _) (fun he hparse => ?_)
    (fun hx => ?_) fun {i t} ht => Or.inr ⟨ht, ?_, rfl, fun _ _ hok => ?_⟩
  · by_cases hq : q = c.next
    · simp only [hq, Function.update_self]
      exact le_rfl
    · simp only [Function.update_of_ne hq]
      exact h.floor q n k
  · rcases List.mem_append.1 he with he | he
    · exact Or.inl he
    · rw [List.mem_singleton.1 he] at hparse
      exact Or.inr (carries_of_client hclient hparse)
  · rcases List.mem_append.1 hx with hx | hx
    · exact Or.inl hx
    · cases List.mem_singleton.1 hx
  · simp only [Function.update_of_ne (hl.taken ht).old.ne]
  · rcases List.mem_append.1 hok with hok | hok
    · exact Or.inl hok
    · cases List.mem_singleton.1 hok

/-- A `REPL` that somebody waits for is staged. -/
theorem stages_of_keeps {e : Envelope} {i : U64} {t : Task} {key value : String} {version : U64} {tombstone : Bool}
    (hkeeps : keeps ids c (.deliver e.conn) = true) (he : e ∈ c.envelopes) (hi : i ∈ ids)
    (ht : c.task i = some t) (hw : t.waiting = some e.conn)
    (hparse : Request.parse e.frame = .ok (.repl key version tombstone value)) :
    stages (recordOf (c.server e.target).store key) version tombstone value = true := by
  have hall := List.all_eq_true.1 hkeeps e he
  rw [hparse] at hall
  have hawaited : awaited ids c e.conn = true := by
    refine List.any_eq_true.2 ⟨i, hi, ?_⟩
    rw [ht, Option.any_some, hw, decide_eq_true_eq]
  simpa [hawaited] using hall

/-- Only a request that is understood is answered with `OK`. -/
theorem parse_of_ok {s s' : Server} {frame : Bytes} {response : Res String}
    (h : s.handle frame = (s', .done response)) (hok : answerLine response = some "OK") :
    ∃ request, Request.parse frame = .ok request := by
  unfold handle at h
  cases hparse : Request.parse frame with
  | ok request => exact ⟨request, rfl⟩
  | error e =>
    rw [hparse] at h
    cases h
    cases initial_error hok

/-- A server keeps its identifier and its peers. -/
theorem Agreed.node_update (h : Agreed ids c g) {i : U64} {s : Server}
    (hsame : s.id = (c.server i).id ∧ s.peers = (c.server i).peers) (hread : Readable s.store) (j : U64) :
    Node ids j (Function.update c.server i s j) := by
  by_cases hj : j = i
  · rw [hj, Function.update_self]
    have hn := h.node i
    exact ⟨hsame.1.trans hn.id, hsame.2.trans hn.peers, hread⟩
  · rw [Function.update_of_ne hj]
    exact h.node j

/-- A server takes a frame and answers it. -/
theorem Agreed.done (h : Agreed ids c g) (hl : Linked ids c) {e : Envelope} {s : Server} {response : Res String}
    (hkeeps : keeps ids c (.deliver e.conn) = true) (he : e ∈ c.envelopes) (hidle : c.task e.target = none)
    (hhandle : (c.server e.target).handle e.frame = (s, .done response)) :
    ∃ took', Handles ids c.server g.took e.target e.frame s response took' ∧
      Agreed ids (((c.dropEnvelope e.conn).setServer e.target s).answer e.conn response) ⟨took', g.floor⟩ := by
  obtain ⟨took', hh⟩ := handles (h.node e.target).readable h.sound (fun hparse => h.carries he hparse) hhandle
  refine ⟨took', hh, h.next (fun i => ?_) hh.evolves.sound hh.evolves.grows (fun q n k => ?_)
    (List.subset_append_left _ _) (fun he' _ => Or.inl (mem_dropEnvelope.1 he').1) (fun hx => ?_)
    fun {i t} ht => Or.inr ⟨ht, rfl, ?_, fun {q peer request} hq hask hok => ?_⟩⟩
  · exact h.node_update hh.same hh.evolves.readable i
  · exact (h.floor q n k).trans (hh.evolves.grows.version_le n k)
  · rcases mem_answer.1 hx with hx | ⟨line, hline, hx⟩
    · exact Or.inl hx
    · cases hx
      exact Or.inr ((hh.tells hline).mono hh.evolves.grows.took)
  · have hne : i ≠ e.target := by
      rintro rfl
      rw [show c.task e.target = some t from ht] at hidle
      cases hidle
    exact Function.update_of_ne hne _ _
  · rcases mem_answer.1 hok with hok | ⟨line, hline, hx⟩
    · exact Or.inl hok
    · -- the answer is the one to the request of the task
      cases hx
      obtain ⟨peer', request', hask', hall⟩ := (hl.awaits ht hq).asked
      rw [hask] at hask'
      cases hask'
      obtain ⟨rfl, hframe⟩ := hall e he rfl
      obtain ⟨r, hparse⟩ := parse_of_ok hhandle hline
      have hr : r = request := eq_of_parse_line (hframe ▸ hparse)
      subst hr
      refine Or.inr (hh.vouches hparse hline (fun k => h.floor t.conn e.target k) ?_)
      rintro key version tombstone value rfl
      exact stages_of_keeps hkeeps he (hl.member ht) ht hq hparse

/-- A server takes the request of a client. -/
theorem Agreed.begin (hids : ids.Nodup) (h : Agreed ids c g) (hl : Linked ids c) {e : Envelope} {request : Request}
    {op : Op} (he : e ∈ c.envelopes) (hparse : Request.parse e.frame = .ok request) (hop : request.op = some op) :
    Agreed ids ((c.dropEnvelope e.conn).setTask e.target (some ⟨e.conn, (c.server e.target).start op, none⟩)) g := by
  refine h.next h.node h.sound (.refl _) h.floor (fun _ hx => hx) (fun he' _ => Or.inl (mem_dropEnvelope.1 he').1)
    (fun hx => Or.inl hx) fun {i t} ht => ?_
  rw [task_setTask] at ht
  split_ifs at ht with hi
  · cases ht
    refine Or.inl ⟨⟨op, ⟨e.frame, request, (hl.pending he).client hparse hop, hparse, hop⟩, rfl, ?_⟩,
      fun hq => (nomatch hq)⟩
    have hpeers : Peers ids i (ids.filter fun peer => decide (peer ≠ i)) :=
      ⟨hids.filter _, fun n hn => ⟨(List.mem_filter.1 hn).1, of_decide_eq_true (List.mem_filter.1 hn).2⟩⟩
    refine hpeers.sublist ?_
    rw [List.nil_append, ← hi, (h.node i).peers]
    exact List.filter_sublist
  · exact Or.inr ⟨ht, rfl, rfl, fun _ _ hok => Or.inl hok⟩

/-- What a server asks for. -/
theorem carries_of_ask {s : Replicas U64 String Content} {floor : U64 → String → ℕ} {i peer : U64} {op : Op}
    {phase : Phase} {request : Request} (h : Relies ids s floor i op phase)
    (hask : phase.ask = some (peer, request)) : Carries ids s peer request := by
  cases phase with
  | pinging op' todo alive =>
    cases todo with
    | nil => cases hask
    | cons p todo =>
      cases hask
      trivial
  | catching op' alive todo =>
    cases todo with
    | nil => cases hask
    | cons p todo =>
      cases hask
      trivial
  | staging key record todo staged =>
    cases todo with
    | nil => cases hask
    | cons p todo =>
      cases hask
      exact Nat.zero_lt_of_lt h.2.1
  | committing key version todo acknowledgements =>
    cases todo with
    | nil => cases hask
    | cons p todo =>
      cases hask
      obtain ⟨value, tombstone, -, hcom⟩ := h
      obtain ⟨acked, -, -, -, htodo⟩ := hcom.settled
      exact ⟨(tombstone, value), hcom.chosen, htodo peer List.mem_cons_self⟩

/-- A server asks a peer. -/
theorem Agreed.ask (h : Agreed ids c g) (hl : Linked ids c) {i peer : U64} {t : Task} {request : Request}
    (ht : c.task i = some t) (hask : t.phase.ask = some (peer, request)) :
    Agreed ids ((c.send peer (utf8 request.line)).setTask i (some { t with waiting := some c.next })) g := by
  obtain ⟨op, hop, hrelies⟩ := (h.task ht).relies
  refine h.next h.node h.sound (.refl _) h.floor (fun _ hx => hx) (fun he hparse => ?_) (fun hx => Or.inl hx)
    fun {j t'} ht' => ?_
  · rcases List.mem_append.1 he with he | he
    · exact Or.inl he
    · rw [List.mem_singleton.1 he] at hparse ⊢
      rw [eq_of_parse_line hparse]
      exact Or.inr (carries_of_ask hrelies hask)
  · rw [task_setTask] at ht'
    split_ifs at ht' with hj
    · cases ht'
      refine Or.inl ⟨⟨op, hop, hj ▸ hrelies⟩, fun hq _ hok => ?_⟩
      cases hq
      exact absurd (hl.old _ hok) (lt_irrefl _)
    · exact Or.inr ⟨ht', rfl, rfl, fun _ _ hok => Or.inl hok⟩

/-- A server goes on with a task. -/
theorem Agreed.proceed (h : Agreed ids c g) (hl : Linked ids c) {i : U64} {t : Task} {op : Op} {p : Server × Next}
    {took' : Took} (ht : c.task i = some t) (hop : Invoked c t.conn op)
    (hgoes : Goes ids c.server g.took (g.floor t.conn) i op t.phase p took') :
    Agreed ids (c.proceed i t p) ⟨took', g.floor⟩ := by
  have hserver := server_proceed c i t p
  refine h.next (fun j => ?_) (hserver ▸ hgoes.evolves.sound) (hserver ▸ hgoes.evolves.grows) (fun q n k => ?_)
    (log_subset_proceed c i t p) (fun he _ => Or.inl (envelopes_proceed c i t p ▸ he)) (fun hx => ?_)
    fun {j t'} ht' => ?_
  · rw [hserver]
    exact h.node_update hgoes.same hgoes.evolves.readable j
  · rw [hserver]
    exact (h.floor q n k).trans (hgoes.evolves.grows.version_le n k)
  · rcases mem_proceed hx with hx | ⟨response, line, hfin, hline, heq⟩
    · exact Or.inl hx
    · cases heq
      rw [hserver]
      exact Or.inr (hgoes.finish hfin hline).1
  · rcases task_proceed ht' with ⟨rfl, phase, hgo, rfl⟩ | ⟨hj, ht'⟩
    · refine Or.inl ⟨⟨op, hop.mono (log_subset_proceed c j t p), ?_⟩, fun hq => (nomatch hq)⟩
      rw [hserver]
      exact hgoes.goOn hgo
    · refine Or.inr ⟨ht', rfl, ?_, fun hq _ hok => ?_⟩
      · rw [hserver]
        exact Function.update_of_ne hj _ _
      · rcases mem_proceed hok with hok | ⟨response, line, -, -, heq⟩
        · exact Or.inl hok
        · -- nobody waits for the answer to the client
          cases heq
          exact absurd rfl ((hl.awaits ht' hq).other ht)

theorem replicas_restart (c : Cluster) (took : Took) (i : U64) (s : Server) :
    replicas (c.restart i s).server took = replicas (Function.update c.server i s) took := by
  change replicas (Function.update c.server i { s with blocked := [] }) took = _
  rw [← Function.update_idem s]
  exact replicas_of_same (by rw [Function.update_self])

/-- A server starts again, with the store that it had. -/
theorem Agreed.restart (h : Agreed ids c g) {i : U64} {s : Server}
    (hev : Evolves ids c.server g.took i s g.took) (hsame : s.id = (c.server i).id ∧ s.peers = (c.server i).peers) :
    Agreed ids (c.restart i s) g := by
  have hrep := replicas_restart c g.took i s
  refine h.next (fun j => ?_) (hrep ▸ hev.sound) (hrep ▸ hev.grows) (fun q n k => ?_) (fun _ hx => hx)
    (fun he _ => Or.inl he) (fun hx => Or.inl hx) fun {j t} ht => ?_
  · exact h.node_update (s := { s with blocked := [] }) hsame hev.readable j
  · rw [hrep]
    exact (h.floor q n k).trans (hev.grows.version_le n k)
  · obtain ⟨hj, ht⟩ := task_restart ht
    exact Or.inr ⟨ht, rfl, Function.update_of_ne hj _ _, fun _ _ hok => Or.inl hok⟩

end Invariant

/-! ## Steps -/

/-- An answer that a server gives without its peers. -/
def Prompt (line : String) : Prop :=
  line = "OK" ∨ initial line = some 'P' ∨ initial line = some 'D' ∨ initial line = some 'E'

/-- What is new after a step: the records that were taken, the versions that an invocation finds, and the
    answers to clients. -/
structure News (ids : List U64) (c : Cluster) (g : Ghost) (event : Event) (c' : Cluster) (g' : Ghost) : Prop where
  grows : Replicas.Grows (replicas c.server g.took) (replicas c'.server g'.took)
  floor : ∀ {q}, q < c.next → g'.floor q = g.floor q
  invoked : ∀ {target frame}, event = .invoke target frame →
    g'.floor c.next = (replicas c.server g.took).version
  taken : ∀ {n key ver content}, (n, key, ver, content) ∈ g'.took → (n, key, ver, content) ∈ g.took ∨
    (∃ e ∈ c.envelopes, ∃ version tombstone value, Request.parse e.frame = .ok (.repl key version tombstone value) ∧
      ver = version.val ∧ content = (tombstone, value)) ∨
    ∃ i t record todo staged, c.task i = some t ∧ t.phase = .staging key record todo staged ∧
      ver = record.version.val ∧ content = (record.tombstone, record.value)
  answers : ∀ {q line}, c'.log = c.log ++ [.answered q line] → Prompt line ∨
    ∃ op, Invoked c q op ∧ Ends ids (replicas c'.server g'.took) (g'.floor q) op line

section Moves
variable {ids : List U64} {c c' : Cluster} {g : Ghost} {event : Event}

/-- A step without an answer, and without a new record. -/
theorem News.quiet (hgrows : Replicas.Grows (replicas c.server g.took) (replicas c'.server g.took))
    (hevent : ∀ target frame, event ≠ .invoke target frame) (hlog : c'.log = c.log) :
    News ids c g event c' g := by
  refine ⟨hgrows, fun _ => rfl, fun heq => absurd heq (hevent _ _), fun hx => Or.inl hx, fun heq => ?_⟩
  rw [hlog] at heq
  exact absurd heq (by simp)

theorem log_answer_eq {q p : ℕ} {line : String} {response : Res String} {log : List Entry}
    (h : log ++ (answerLine response).toList.map (Entry.answered p) = log ++ [.answered q line]) :
    answerLine response = some line ∧ p = q := by
  have hmap := List.append_cancel_left h
  cases hline : answerLine response with
  | none =>
    rw [hline] at hmap
    cases hmap
  | some line' =>
    rw [hline] at hmap
    cases hmap
    exact ⟨rfl, rfl⟩

/-- A server that halted has merged some of the records of a dump. -/
theorem evolves_halted {server : U64 → Server} {took : Took} {i : U64} (hnode : Node ids i (server i))
    (hsound : Replicas.Sound ids.toFinset (replicas server took)) {line : String}
    (htells : Tells ids (replicas server took) line) (rows : ℕ) (phase : Phase) :
    Evolves ids server took i (halted (server i) rows line phase) took ∧
      (halted (server i) rows line phase).id = (server i).id ∧
      (halted (server i) rows line phase).peers = (server i).peers := by
  have hsame : Evolves ids server took i (server i) took := .of_same hnode.readable hsound rfl
  unfold halted
  split
  · split
    · rename_i records heq
      obtain ⟨text, htext, hrows⟩ := Option.map_eq_some_iff.1 heq
      refine ⟨evolves_mergeAll hnode.readable hsound (fun k r hr => ?_) rfl, rfl, rfl⟩
      exact htells text records htext hrows k r (List.mem_of_mem_take hr)
    · exact ⟨hsame, rfl, rfl⟩
  · exact ⟨hsame, rfl, rfl⟩

/-- The news of a server that goes on with a task. -/
theorem News.proceed {i : U64} {t : Task} {op : Op} {p : Server × Next} {took' : Took} (ht : c.task i = some t)
    (hop : Invoked c t.conn op) (hgoes : Goes ids c.server g.took (g.floor t.conn) i op t.phase p took')
    (hevent : ∀ target frame, event ≠ .invoke target frame) :
    News ids c g event (c.proceed i t p) ⟨took', g.floor⟩ := by
  have htaken : ∀ {n key ver content}, (n, key, ver, content) ∈ took' → (n, key, ver, content) ∈ g.took ∨
      (∃ e ∈ c.envelopes, ∃ version tombstone value,
        Request.parse e.frame = .ok (.repl key version tombstone value) ∧ ver = version.val ∧
          content = (tombstone, value)) ∨
      ∃ i t record todo staged, c.task i = some t ∧ t.phase = .staging key record todo staged ∧
        ver = record.version.val ∧ content = (record.tombstone, record.value) := by
    intro n key ver content hx
    rcases hgoes.taken _ hx with hx | ⟨key', record, todo, staged, hphase, heq⟩
    · exact Or.inl hx
    · cases heq
      exact Or.inr (Or.inr ⟨i, t, record, todo, staged, ht, hphase, rfl, rfl⟩)
  obtain ⟨s, next⟩ := p
  cases next with
  | goOn phase =>
    refine ⟨hgoes.evolves.grows, fun _ => rfl, fun heq => absurd heq (hevent _ _), htaken, fun heq => ?_⟩
    exact absurd (show c.log = c.log ++ _ from heq) (by simp)
  | finish response =>
    refine ⟨hgoes.evolves.grows, fun _ => rfl, fun heq => absurd heq (hevent _ _), htaken, fun heq => ?_⟩
    obtain ⟨hline, rfl⟩ := log_answer_eq heq
    exact Or.inr ⟨op, hop, (hgoes.finish rfl hline).2⟩

/-- **One step keeps the invariant**, if it keeps what is staged. -/
theorem Agreed.move (hids : ids.Nodup) (h : Agreed ids c g) (hl : Linked ids c)
    (hmove : Move ids c event c') (hclients : clients event = true) (hkeeps : keeps ids c event = true) :
    ∃ g', Agreed ids c' g' ∧ News ids c g event c' g' := by
  cases hmove with
  | invoke target frame =>
    refine ⟨_, h.invoke hl target frame hclients, .refl _, fun hq => ?_, fun _ => ?_, fun hx => Or.inl hx,
      fun heq => ?_⟩
    · exact Function.update_of_ne hq.ne _ _
    · exact Function.update_self _ _ _
    · cases List.append_cancel_left heq
  | @done e s response he hmem hidle hhandle =>
    obtain ⟨took', hh, hagreed⟩ := h.done hl hkeeps he hidle hhandle
    refine ⟨_, hagreed, hh.evolves.grows, fun _ => rfl, fun heq => (nomatch heq), fun hx => ?_, fun heq => ?_⟩
    · rcases hh.taken _ hx with hx | ⟨key, version, tombstone, value, hparse, heq⟩
      · exact Or.inl hx
      · cases heq
        exact Or.inr (Or.inl ⟨e, he, version, tombstone, value, hparse, rfl, rfl⟩)
    · exact Or.inl (hh.answer (log_answer_eq heq).1)
  | begin he hmem hidle hparse hop =>
    exact ⟨g, h.begin hids hl he hparse hop, .quiet (.refl _) (fun _ _ heq => (nomatch heq)) rfl⟩
  | ask ht hask hw => exact ⟨g, h.ask hl ht hask, .quiet (.refl _) (fun _ _ heq => (nomatch heq)) rfl⟩
  | @receive i t q line ht hq hline =>
    obtain ⟨op, hop, hrelies⟩ := (h.task ht).relies
    have hgoes := goes_receive (some line) (h.node i) h.sound hrelies
      (fun line' heq => Option.some.inj heq ▸ h.tells hline)
      (fun hask hok => (h.task ht).vouches hq hask (Option.some.inj hok ▸ hline))
    exact ⟨_, h.proceed hl ht hop hgoes, .proceed ht hop hgoes fun _ _ heq => (nomatch heq)⟩
  | @timeout i t q ht hq =>
    obtain ⟨op, hop, hrelies⟩ := (h.task ht).relies
    have hgoes := goes_receive none (h.node i) h.sound hrelies
      (fun line' heq => (nomatch heq)) (fun hask hok => (nomatch hok))
    exact ⟨_, h.proceed hl ht hop hgoes, .proceed ht hop hgoes fun _ _ heq => (nomatch heq)⟩
  | @advance i t ht hask =>
    obtain ⟨op, hop, hrelies⟩ := (h.task ht).relies
    obtain ⟨took', hgoes⟩ := goes_advance hids (hl.member ht) (h.node i) h.sound (h.floor t.conn i) hrelies hask
    exact ⟨_, h.proceed hl ht hop hgoes, .proceed ht hop hgoes fun _ _ heq => (nomatch heq)⟩
  | crash i =>
    have hev : Evolves ids c.server g.took i (c.server i) g.took := .of_same (h.node i).readable h.sound rfl
    refine ⟨g, h.restart hev ⟨rfl, rfl⟩, .quiet ?_ (fun _ _ heq => (nomatch heq)) rfl⟩
    rw [replicas_restart]
    exact hev.grows
  | @halt i t q rows line ht hq hline =>
    obtain ⟨hev, hsame⟩ := evolves_halted (h.node i) h.sound (h.tells hline) rows t.phase
    refine ⟨g, h.restart hev hsame, .quiet ?_ (fun _ _ heq => (nomatch heq)) rfl⟩
    rw [replicas_restart]
    exact hev.grows

end Moves

/-! ## Runs -/

/-- Committed records of one version are the same. -/
def Agrees (ids : List U64) (c : Cluster) : Prop :=
  ∀ i ∈ ids, ∀ j ∈ ids, ∀ key r r', recordOf (c.server i).store key = some r →
    recordOf (c.server j).store key = some r' → r.committed = true → r'.committed = true →
    r.version = r'.version → r.tombstone = r'.tombstone ∧ r.value = r'.value

/-- The server has the value as committed at the version, or a newer version. -/
def HasWrite (c : Cluster) (key value : String) (version : U64) (n : U64) : Prop :=
  recordOf (c.server n).store key = some ⟨version, false, true, value⟩ ∨
    ∃ r, recordOf (c.server n).store key = some r ∧ version < r.version

/-- If the step from `c` to `c'` answers `OK version` to a `PUT`, a majority has the write. -/
def Held (ids : List U64) (c c' : Cluster) : Prop :=
  ∀ q frame key value version, .invoked q frame ∈ c.log → Request.parse frame = .ok (.put key value) →
    c'.log = c.log ++ [.answered q ("OK " ++ U64.print version)] →
    Majority ids.toFinset (HasWrite c' key value version)

/-- The servers agree at the end of a run, and if its last step answers a `PUT`, a majority has the write. -/
def VersionAgreement (ids : List U64) (steps : Steps) (c : Cluster) : Prop :=
  Agrees ids c ∧ ∀ c₀ event rest, steps = (c₀, event) :: rest → Held ids c₀ c

section Runs
variable {ids : List U64} {c c' : Cluster} {g g' : Ghost} {event : Event} {steps : Steps}

theorem Agreed.agrees (h : Agreed ids c g) : Agrees ids c := by
  intro i _ j _ key r r' hr hr' hcom hcom' hver
  have hcontent : (r.tombstone, r.value) = (r'.tombstone, r'.value) :=
    h.sound.agree (record_replicas _ hr) (record_replicas _ hr') hcom hcom' (congrArg Fin.val hver)
  exact Prod.mk.inj hcontent

theorem hasWrite_of_settled {took : Took} {key value : String} {version : U64} {n : U64}
    (h : Replicas.Settled (replicas c.server took) n key version.val (false, value)) :
    HasWrite c key value version n := by
  rcases h with hrec | hlt
  · obtain ⟨r, hr, heq⟩ := Option.map_eq_some_iff.1 hrec
    refine Or.inl (hr.trans (congrArg some ?_))
    obtain ⟨version', tombstone, committed, value'⟩ := r
    obtain ⟨hver, hcom, hcontent⟩ := (Versioned.mk.injEq ..).mp heq
    obtain ⟨htomb, hvalue⟩ := Prod.mk.inj hcontent
    rw [ReplicaValue.mk.injEq]
    exact ⟨Fin.ext hver, htomb, hcom, hvalue⟩
  · obtain ⟨r, hr, -⟩ := Replicas.record_of_reached (Nat.zero_lt_of_lt hlt) le_rfl
    rw [Replicas.version_of_record hr] at hlt
    obtain ⟨current, hcur, rfl⟩ := Option.map_eq_some_iff.1 hr
    exact Or.inr ⟨current, hcur, Fin.lt_def.2 hlt⟩

/-- The answer to a write is not one that a server gives at once. -/
theorem not_prompt (version : U64) : ¬ Prompt ("OK " ++ version.print) := by
  rintro (h | h | h | h)
  · have hlen := congrArg String.toList h
    rw [String.toList_append] at hlen
    cases hlen
  all_goals exact ne_okLine h (by decide) version rfl

theorem News.held (hl : Linked ids c) (h : News ids c g event c' g') : Held ids c c' := by
  intro q frame key value version hinv hparse hlog
  obtain ⟨op, hop, hends⟩ := (h.answers hlog).resolve_left (not_prompt version)
  obtain ⟨key', value', tombstone, rfl, -, hmaj, -⟩ := hends version rfl
  have hput : Invoked c q (.write key value false) := ⟨frame, .put key value, hinv, hparse, rfl⟩
  cases hop.unique hl hput
  exact hmaj.mono fun n _ hn => hasWrite_of_settled hn

/-- **Every run keeps the invariant**, if all its steps keep what is staged. -/
theorem run_agreed (hids : ids.Nodup) (hrun : Run ids (start ids) steps c)
    (hclients : Meets (fun _ => clients) steps) (hkeeps : Meets (keeps ids) steps) :
    Linked ids c ∧ ∃ g, Agreed ids c g := by
  induction hrun with
  | refl => exact ⟨.start ids, _, .start ids⟩
  | @step c₀ c₁ event rest _ hstep ih =>
    obtain ⟨hl, g, hg⟩ := ih (fun p hp => hclients p (List.mem_cons_of_mem _ hp))
      fun p hp => hkeeps p (List.mem_cons_of_mem _ hp)
    have hmove := move_of_step hstep
    obtain ⟨g', hg', -⟩ := hg.move hids hl hmove (hclients _ List.mem_cons_self) (hkeeps _ List.mem_cons_self)
    exact ⟨hl.move hmove, g', hg'⟩

/-- **Version agreement**: in a run in which no server is told that a peer has staged its record when the peer
    has kept another one, committed records of one version agree, and every `OK version` is given when a majority
    has the write. -/
theorem version_agreement (hids : ids.Nodup) (hrun : Run ids (start ids) steps c)
    (hclients : Meets (fun _ => clients) steps) (hkeeps : Meets (keeps ids) steps) :
    VersionAgreement ids steps c := by
  obtain ⟨-, g, hg⟩ := run_agreed hids hrun hclients hkeeps
  refine ⟨hg.agrees, ?_⟩
  rintro c₀ event rest rfl
  cases hrun with
  | step hrun hstep =>
    obtain ⟨hl, g₀, hg₀⟩ := run_agreed hids hrun (fun p hp => hclients p (List.mem_cons_of_mem _ hp))
      fun p hp => hkeeps p (List.mem_cons_of_mem _ hp)
    obtain ⟨g', -, hnews⟩ := hg₀.move hids hl (move_of_step hstep) (hclients _ List.mem_cons_self)
      (hkeeps _ List.mem_cons_self)
    exact hnews.held hl

/-! ## One leader, and two -/

/-- A server asks a peer and gets the answer. -/
def exchange (i : U64) (q : ℕ) : List Event := [.ask i, .deliver q, .receive i]

/-- A server asks a peer and gets no answer. -/
def lost (i : U64) : List Event := [.ask i, .timeout i]

/-- A `PUT` at the first of three servers, which writes without the third. -/
def oneLeader : List Event :=
  [.invoke 1 (utf8 (Request.put "k" "a").line), .deliver 0] ++ exchange 1 1 ++ lost 1 ++ [.advance 1] ++
    exchange 1 3 ++ [.advance 1] ++ exchange 1 4 ++ [.advance 1] ++ exchange 1 5 ++ [.advance 1]

/-- The second server does not see the first, and both write with the third. -/
def twoLeaders : List Event :=
  [.invoke 2 (utf8 (Request.adminBlock 1).line), .deliver 0, .invoke 1 (utf8 (Request.put "k" "a").line),
    .invoke 2 (utf8 (Request.put "k" "b").line), .deliver 1, .deliver 2] ++
    lost 1 ++ exchange 1 4 ++ [.advance 1] ++ exchange 1 5 ++ [.advance 1] ++
    exchange 2 6 ++ [.advance 2] ++ exchange 2 7 ++ [.advance 2] ++
    exchange 1 8 ++ exchange 2 9 ++ [.advance 1, .advance 2]

theorem version_agreement_oneLeader : ∃ steps c, Run [1, 2, 3] (start [1, 2, 3]) steps c ∧
    c.log.getLast? = some (.answered 0 "OK 1") ∧ VersionAgreement [1, 2, 3] steps c := by
  have hexec : (execute [1, 2, 3] (fun c e => clients e && keeps [1, 2, 3] c e) oneLeader
      (start [1, 2, 3])).map (fun c => c.log.getLast?) = some (some (.answered 0 "OK 1")) := by decide +kernel
  obtain ⟨c, hc, hlog⟩ := Option.map_eq_some_iff.1 hexec
  obtain ⟨steps, hrun, hmeets⟩ := run_execute (.refl _) (fun p hp => (nomatch hp)) hc
  exact ⟨steps, c, hrun, hlog, version_agreement (by decide) hrun
    (fun p hp => (Bool.and_eq_true_iff.1 (hmeets p hp)).1) fun p hp => (Bool.and_eq_true_iff.1 (hmeets p hp)).2⟩

/-- Both servers commit a record of the first version. -/
theorem not_agreement_twoLeaders : ¬ ∀ ids steps c, ids.Nodup → Run ids (start ids) steps c →
    Meets (fun _ => clients) steps → VersionAgreement ids steps c := by
  intro h
  have hexec : (execute [1, 2, 3] (fun _ => clients) twoLeaders (start [1, 2, 3])).map
      (fun c => (recordOf (c.server 1).store "k", recordOf (c.server 2).store "k")) =
      some (some ⟨1, false, true, "a"⟩, some ⟨1, false, true, "b"⟩) := by decide +kernel
  obtain ⟨c, hc, hrecords⟩ := Option.map_eq_some_iff.1 hexec
  obtain ⟨h1, h2⟩ := Prod.mk.inj hrecords
  obtain ⟨steps, hrun, hmeets⟩ := run_execute (.refl _) (fun p hp => (nomatch hp)) hc
  have hagree := (h [1, 2, 3] steps c (by decide) hrun hmeets).1 1 (by decide) 2 (by decide) "k" _ _ h1 h2
    rfl rfl rfl
  exact absurd hagree.2 (by decide)

end Runs

end Cluster

end NutDb.Server
