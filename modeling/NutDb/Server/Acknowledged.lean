/-
  Acknowledged writes (`client_write` and `client_read`).

  A `PUT` that is answered `OK version` is on a majority of the nodes.  A `GET` that
  is invoked afterwards should find it, or a newer one.  It does so in a run that
  `keeps` what is staged, if it `serves` what it reads: a staged record takes the
  place of the committed one, and while it is there a read sees neither.

  `floor` carries the order of time: the versions that the nodes had reached when a
  request was invoked.  A write that is acknowledged before is below them on a
  majority, and the request itself ends above them on a majority.
-/
import NutDb.Server.Agreement
import NutDb.Server.Read

namespace NutDb.Server

open Lib

namespace Cluster

/-! ## Phases of a write -/

/-- The phase stages or commits the version of a key. -/
def Writes (key : String) (ver : ℕ) : Phase → Prop
  | .staging key' record _ _ => key' = key ∧ record.version.val = ver
  | .committing key' version _ _ => key' = key ∧ version.val = ver
  | _ => False

section Phases
variable {s s' : Server} {phase phase' : Phase} {key line : String} {ver : ℕ} {response : Res String}

theorem Writes.receive {answer : Option String} (h : Writes key ver phase)
    (hreceive : s.receive answer phase = (s', .goOn phase')) : Writes key ver phase' := by
  cases phase with
  | pinging op todo alive => exact h.elim
  | catching op alive todo => exact h.elim
  | staging key' record todo staged =>
    cases todo with
    | nil =>
      cases hreceive
      exact h
    | cons peer todo =>
      simp only [Server.receive] at hreceive
      split_ifs at hreceive <;> cases hreceive <;> exact h
  | committing key' version todo acknowledgements =>
    cases todo with
    | nil =>
      cases hreceive
      exact h
    | cons peer todo =>
      simp only [Server.receive] at hreceive
      split_ifs at hreceive <;> cases hreceive <;> exact h

theorem Writes.advance (h : Writes key ver phase) (hadvance : s.advance phase = (s', .goOn phase')) :
    Writes key ver phase' := by
  cases phase with
  | pinging op todo alive => exact h.elim
  | catching op alive todo => exact h.elim
  | staging key' record todo staged =>
    cases todo with
    | nil =>
      simp only [Server.advance] at hadvance
      split_ifs at hadvance
      · cases hadvance
      · split at hadvance
        · cases hadvance
          exact h
        · cases hadvance
    | cons peer todo =>
      cases hadvance
      exact h
  | committing key' version todo acknowledgements =>
    cases todo with
    | nil =>
      simp only [Server.advance] at hadvance
      split_ifs at hadvance <;> cases hadvance
    | cons peer todo =>
      cases hadvance
      exact h

/-- Only a failure ends a request before its time. -/
theorem receive_finish {answer : Option String} (h : s.receive answer phase = (s', .finish response)) :
    ∃ e, response = .error e := by
  unfold Server.receive at h
  split at h
  · split_ifs at h <;> cases h
  · split at h
    · cases h
    · split at h
      · cases h
        exact ⟨_, rfl⟩
      · split at h
        · cases h
        · cases h
          exact ⟨_, rfl⟩
  · split_ifs at h <;> cases h
  · split_ifs at h <;> cases h
  · cases h

/-- A write is answered with its version. -/
theorem Writes.answer {version : U64} (h : Writes key ver phase)
    (hadvance : s.advance phase = (s', .finish response))
    (hline : answerLine response = some ("OK " ++ version.print)) : version.val = ver := by
  cases phase with
  | pinging op todo alive => exact h.elim
  | catching op alive todo => exact h.elim
  | staging key' record todo staged =>
    cases todo with
    | nil =>
      simp only [Server.advance] at hadvance
      split_ifs at hadvance
      · cases hadvance
        exact absurd (Option.some.inj hline) (ne_okLine (x := 'R') rfl (by decide) version)
      · split at hadvance
        · cases hadvance
        · cases hadvance
          exact absurd rfl (ne_okLine (initial_error hline) (by decide) version)
    | cons peer todo => cases hadvance
  | committing key' version' todo acknowledgements =>
    cases todo with
    | nil =>
      simp only [Server.advance] at hadvance
      split_ifs at hadvance
      · cases hadvance
        rw [← okLine_injective (Option.some.inj hline)]
        exact h.2
      · cases hadvance
        exact absurd (Option.some.inj hline) (ne_okLine (x := 'R') rfl (by decide) version)
    | cons peer todo => cases hadvance

/-- An answer of a read: there is a value, or there is none. -/
def IsRead (line : String) : Prop := line = "NIL" ∨ ∃ text, line = "VALUE " ++ text

theorem initial_of_isRead (h : IsRead line) : initial line = some 'N' ∨ initial line = some 'V' := by
  rcases h with rfl | ⟨text, rfl⟩
  · exact Or.inl rfl
  · exact Or.inr (initial_append rfl)

/-- Such an answer is given at the end of a read. -/
theorem read_of_advance (h : s.advance phase = (s', .finish response)) (hline : answerLine response = some line)
    (hread : IsRead line) : ∃ key alive, phase = .catching (.read key) alive [] ∧ s' = s ∧
      response = (readRecord s.store key).map readLine := by
  have hinit := initial_of_isRead hread
  have hother : ∀ {x}, initial line = some x → x ≠ 'N' → x ≠ 'V' → False := by
    intro x hx h1 h2
    rcases hinit with h | h <;> rw [hx] at h <;> cases h
    · exact h1 rfl
    · exact h2 rfl
  unfold Server.advance at h
  split at h
  · split_ifs at h
    · cases h
      cases hline
      exact (hother (initial_append (x := 'R') rfl) (by decide) (by decide)).elim
    · cases h
      cases hline
      exact (hother (x := 'R') rfl (by decide) (by decide)).elim
    · cases h
  · cases h
    exact ⟨_, _, rfl, rfl, rfl⟩
  · split at h
    · cases h
    · cases h
      exact (hother (initial_error hline) (by decide) (by decide)).elim
  · split_ifs at h
    · cases h
      cases hline
      exact (hother (x := 'R') rfl (by decide) (by decide)).elim
    · split at h
      · cases h
      · cases h
        exact (hother (initial_error hline) (by decide) (by decide)).elim
  · split_ifs at h
    · cases h
      cases hline
      exact (hother (initial_append (x := 'O') rfl) (by decide) (by decide)).elim
    · cases h
      cases hline
      exact (hother (x := 'R') rfl (by decide) (by decide)).elim
  · cases h

end Phases

/-! ## Where records come from -/

/-- The write on the connection `q` has picked the version; if it is answered `OK`, then with that version. -/
structure Origin (c : Cluster) (q : ℕ) (key : String) (ver : ℕ) (content : Content) : Prop where
  invoked : Invoked c q (.write key content.2 content.1)
  taken : ∀ e ∈ c.envelopes, e.conn ≠ q
  answer : ∀ {version : U64}, .answered q ("OK " ++ version.print) ∈ c.log → version.val = ver
  task : ∀ {i t}, c.task i = some t → t.conn = q → Writes key ver t.phase

section Origins
variable {ids : List U64} {c c' : Cluster} {event : Event} {q : ℕ} {key : String} {ver : ℕ} {content : Content}
variable {i : U64} {t : Task}

theorem Invoked.old (h : Linked ids c) {op : Op} (hq : Invoked c q op) : q < c.next := by
  obtain ⟨frame, request, hlog, -⟩ := hq
  exact h.old _ hlog

/-- A task that stages a record is its origin. -/
theorem origin_of_task (h : Linked ids c) (ht : c.task i = some t)
    (hop : Invoked c t.conn (.write key content.2 content.1)) (hphase : Writes key ver t.phase) :
    Origin c t.conn key ver content := by
  refine ⟨hop, (h.taken ht).taken, fun hx => absurd hx ((h.taken ht).unanswered _), fun {j t'} ht' heq => ?_⟩
  cases h.distinct ht' ht heq
  rw [ht] at ht'
  cases ht'
  exact hphase

/-- What a step leaves of an origin: its frame is not sent again, and its task goes on writing. -/
theorem Origin.next (h : Origin c q key ver content) (hlog : c.log ⊆ c'.log)
    (htaken : ∀ e ∈ c'.envelopes, e ∈ c.envelopes ∨ e.conn ≠ q)
    (hanswer : ∀ {version : U64}, .answered q ("OK " ++ version.print) ∈ c'.log →
      .answered q ("OK " ++ version.print) ∈ c.log ∨ version.val = ver)
    (htask : ∀ {i t}, c'.task i = some t → t.conn = q → Writes key ver t.phase ∨ c.task i = some t) :
    Origin c' q key ver content := by
  refine ⟨h.invoked.mono hlog, fun e he => ?_, fun hx => ?_, fun ht heq => ?_⟩
  · rcases htaken e he with he | hne
    · exact h.taken e he
    · exact hne
  · rcases hanswer hx with hx | hver
    · exact h.answer hx
    · exact hver
  · rcases htask ht heq with hw | ht
    · exact hw
    · exact h.task ht heq

/-- The task goes on. -/
theorem Origin.proceed (h : Origin c q key ver content) (ht : c.task i = some t) {p : Server × Next}
    (hgoOn : ∀ {phase}, p.2 = .goOn phase → Writes key ver t.phase → Writes key ver phase)
    (hfinish : ∀ {response} {version : U64}, p.2 = .finish response →
      answerLine response = some ("OK " ++ version.print) → Writes key ver t.phase → version.val = ver) :
    Origin (c.proceed i t p) q key ver content := by
  refine h.next (log_subset_proceed c i t p) (fun e he => Or.inl (envelopes_proceed c i t p ▸ he)) (fun hx => ?_)
    fun {j t'} ht' heq => ?_
  · rcases mem_proceed hx with hx | ⟨response, line, hfin, hline, heq⟩
    · exact Or.inl hx
    · cases heq
      exact Or.inr (hfinish hfin hline (h.task ht rfl))
  · rcases task_proceed ht' with ⟨rfl, phase, hgo, rfl⟩ | ⟨hj, ht'⟩
    · exact Or.inl (hgoOn hgo (h.task ht heq))
    · exact Or.inr ht'

theorem Origin.restart (h : Origin c q key ver content) (i : U64) (s : Server) :
    Origin (c.restart i s) q key ver content :=
  h.next (fun _ hx => hx) (fun _ he => Or.inl he) (fun hx => Or.inl hx) fun ht' _ => Or.inr (task_restart ht').2

/-- **A record keeps its origin.** -/
theorem Origin.move (h : Origin c q key ver content) (hl : Linked ids c) (hmove : Move ids c event c') :
    Origin c' q key ver content := by
  have hold : q < c.next := h.invoked.old hl
  cases hmove with
  | invoke target frame =>
    refine h.next (List.subset_append_left _ _) (fun e he => ?_) (fun hx => ?_) fun ht _ => Or.inr ht
    · rcases List.mem_append.1 he with he | he
      · exact Or.inl he
      · rw [List.mem_singleton.1 he]
        exact Or.inr hold.ne'
    · rcases List.mem_append.1 hx with hx | hx
      · exact Or.inl hx
      · cases List.mem_singleton.1 hx
  | @done e s response he hmem hidle hhandle =>
    refine h.next (List.subset_append_left _ _) (fun e' he' => Or.inl (mem_dropEnvelope.1 he').1) (fun hx => ?_)
      fun ht _ => Or.inr ht
    rcases mem_answer.1 hx with hx | ⟨line, -, hx⟩
    · exact Or.inl hx
    · cases hx
      exact absurd rfl (h.taken e he)
  | @begin e request op he hmem hidle hparse hop =>
    refine h.next (fun _ hx => hx) (fun e' he' => Or.inl (mem_dropEnvelope.1 he').1) (fun hx => Or.inl hx)
      fun {j t'} ht' heq => ?_
    rw [task_setTask] at ht'
    split_ifs at ht' with hj
    · cases ht'
      exact absurd heq (h.taken e he)
    · exact Or.inr ht'
  | @ask i peer t request ht hask hw =>
    refine h.next (fun _ hx => hx) (fun e he => ?_) (fun hx => Or.inl hx) fun {j t'} ht' heq => ?_
    · rcases List.mem_append.1 he with he | he
      · exact Or.inl he
      · rw [List.mem_singleton.1 he]
        exact Or.inr hold.ne'
    · rw [task_setTask] at ht'
      split_ifs at ht' with hj
      · cases ht'
        exact Or.inl (show Writes key ver t.phase from h.task ht heq)
      · exact Or.inr ht'
  | @receive i t q' line ht hq hline =>
    refine h.proceed ht (fun heq hw => hw.receive (Prod.ext rfl heq)) fun heq hok hw => ?_
    obtain ⟨e, rfl⟩ := receive_finish (Prod.ext rfl heq)
    exact absurd rfl (ne_okLine (initial_error hok) (by decide) _)
  | @timeout i t q' ht hq =>
    refine h.proceed ht (fun heq hw => hw.receive (Prod.ext rfl heq)) fun heq hok hw => ?_
    obtain ⟨e, rfl⟩ := receive_finish (Prod.ext rfl heq)
    exact absurd rfl (ne_okLine (initial_error hok) (by decide) _)
  | @advance i t ht hask =>
    exact h.proceed ht (fun heq hw => hw.advance (Prod.ext rfl heq)) fun heq hok hw =>
      hw.answer (Prod.ext rfl heq) hok
  | crash i => exact h.restart i _
  | @halt i t q' rows line ht hq hline => exact h.restart i _

end Origins

/-! ## What a read has seen -/

/-- The version of a record of a server. -/
def reached (c : Cluster) (i : U64) (key : String) : ℕ := (versionOf (c.server i).store key).val

/-- The server has reached the version, or will when it merges the dump. -/
def Delivers (ver own : ℕ) (key line : String) : Prop :=
  ver ≤ own ∨ ∃ text rows r, stripPrefix "DUMP " line = some text ∧ decodeDump text = .ok rows ∧
    (key, r) ∈ rows ∧ ver ≤ r.version.val

/-- A read that catches up has a quorum.  It has reached what the peers that it has asked had when it was
    invoked, and the answer that it waits for will bring it up to the next. -/
structure Reads (ids : List U64) (c : Cluster) (g : Ghost) (i : U64) (t : Task) : Prop where
  quorum : ∀ {key alive todo}, t.phase = .catching (.read key) alive todo →
    ids.length < (alive.length + 1) * 2 ∧ ∀ n ∈ alive, n ∉ todo → g.floor t.conn n key ≤ reached c i key
  line : ∀ {key alive peer todo q line}, t.phase = .catching (.read key) alive (peer :: todo) →
    t.waiting = some q → .answered q line ∈ c.log →
    Delivers (g.floor t.conn peer key) (reached c i key) key line

section Reading
variable {ids : List U64} {c c' : Cluster} {g g' : Ghost} {event : Event} {i : U64} {t : Task}

theorem Delivers.mono {ver own own' : ℕ} {key line : String} (h : Delivers ver own key line) (hle : own ≤ own') :
    Delivers ver own' key line := by
  rcases h with h | h
  · exact Or.inl (h.trans hle)
  · exact Or.inr h

theorem reached_le (h : News ids c g event c' g') (i : U64) (key : String) : reached c i key ≤ reached c' i key := by
  have hle := h.grows.version_le i key
  rwa [version_replicas, version_replicas] at hle

theorem floor_le_reached (h : Agreed ids c g) (q : ℕ) (n : U64) (key : String) : g.floor q n key ≤ reached c n key := by
  have hle := h.floor q n key
  rwa [version_replicas] at hle

/-- A task that goes on as it was. -/
theorem Reads.next (h : Reads ids c g i t) (hnews : News ids c g event c' g') (hold : t.conn < c.next)
    (hline : ∀ {key alive peer todo q line}, t.phase = .catching (.read key) alive (peer :: todo) →
      t.waiting = some q → .answered q line ∈ c'.log → .answered q line ∈ c.log ∨
        Delivers (g.floor t.conn peer key) (reached c' i key) key line) : Reads ids c' g' i t := by
  constructor
  · intro key alive todo hphase
    obtain ⟨hlen, hall⟩ := h.quorum hphase
    refine ⟨hlen, fun n hn htodo => ?_⟩
    rw [hnews.floor hold]
    exact (hall n hn htodo).trans (reached_le hnews i key)
  · intro key alive peer todo q line hphase hq hx
    rw [hnews.floor hold]
    rcases hline hphase hq hx with hx | hd
    · exact (h.line hphase hq hx).mono (reached_le hnews i key)
    · exact hd

/-- A task that does not catch up to read. -/
theorem reads_of_other (hphase : ∀ key alive todo, t.phase ≠ .catching (.read key) alive todo) :
    Reads ids c g i t :=
  ⟨fun heq => absurd heq (hphase _ _ _), fun heq => absurd heq (hphase _ _ _)⟩

/-- The dump of a peer, if its record is committed or not newer. -/
theorem delivers_of_dump {peer : U64} {key line : String} {s : Server} {response : Res String} {ver own : ℕ}
    (hread : Readable (c.server peer).store) (hver : ver ≤ reached c peer key)
    (hserves : unstaged (recordOf (c.server peer).store key) = true ∨ reached c peer key ≤ own)
    (hhandle : (c.server peer).handle (utf8 Request.dump.line) = (s, .done response))
    (hline : answerLine response = some line) : Delivers ver own key line := by
  rcases hserves with hcom | hle
  · obtain ⟨text, rows, hdump, hdecode, hmem⟩ := Decodes.dump hread
    rw [handle, Request.parse_line (by decide)] at hhandle
    simp only [perform, hdump] at hhandle
    cases hhandle
    cases hline
    cases hrec : recordOf (c.server peer).store key with
    | none =>
      rw [reached, versionOf, hrec] at hver
      exact Or.inl (hver.trans (Nat.zero_le _))
    | some r =>
      rw [hrec] at hcom
      rw [reached, versionOf, hrec] at hver
      exact Or.inr ⟨text, rows, r, stripPrefix_append _ _, hdecode, (hmem key r).2 ⟨hrec, hcom⟩, hver⟩
  · exact Or.inl (hver.trans hle)

/-- Merging the dump brings the server up. -/
theorem reached_of_mergeAll {m m' : Records} {rows : List (String × ReplicaValue)} {key : String} {r : ReplicaValue}
    (hread : Readable m) (hmerge : mergeAll m rows = (m', .ok ())) (hr : (key, r) ∈ rows) :
    r.version ≤ versionOf m' key := by
  obtain ⟨f', hf', hnewest⟩ := mergeAll_newest hread hmerge
  obtain ⟨r', hr', hrank⟩ : Reaches (f' key) r := by
    rw [hnewest, reaches_newest]
    exact Or.inr ⟨r, mem_rowsOf.2 hr, le_rfl⟩
  rw [versionOf, recordOf_eq hf', hr']
  exact version_le_of_rank hrank

/-- How a server comes to go on catching up. -/
theorem receive_catching {s s' : Server} {answer : Option String} {phase : Phase} {op : Op} {alive todo : List U64}
    {peer : U64} {request : Request} (hask : phase.ask = some (peer, request))
    (h : s.receive answer phase = (s', .goOn (.catching op alive todo))) :
    phase = .catching op alive (peer :: todo) ∧ (answer.bind (stripPrefix "DUMP ") = none ∧ s' = s ∨
      ∃ text rows m, answer.bind (stripPrefix "DUMP ") = some text ∧ decodeDump text = .ok rows ∧
        mergeAll s.store rows = (m, .ok ()) ∧ s' = { s with store := m }) := by
  unfold Server.receive at h
  split at h
  · split_ifs at h <;> cases h
  · split at h
    · rename_i hnone
      cases h
      cases hask
      exact ⟨rfl, Or.inl ⟨hnone, rfl⟩⟩
    · rename_i text hsome
      split at h
      · cases h
      · rename_i rows hrows
        split at h
        · rename_i m hmerge
          cases h
          cases hask
          exact ⟨rfl, Or.inr ⟨text, rows, m, hsome, hrows, hmerge, rfl⟩⟩
        · cases h
  · split_ifs at h <;> cases h
  · split_ifs at h <;> cases h
  · rename_i hcatching _ _
    cases h
    cases todo with
    | nil => cases hask
    | cons p todo => exact absurd rfl (hcatching op alive p todo)

/-- How a server comes to catch up. -/
theorem advance_catching {s s' : Server} {phase : Phase} {op : Op} {alive todo : List U64} (hask : phase.ask = none)
    (h : s.advance phase = (s', .goOn (.catching op alive todo))) :
    phase = .pinging op [] alive ∧ todo = alive ∧ ¬ alive.length + 1 ≤ s.peers.length / 2 := by
  unfold Server.advance at h
  split at h
  · split_ifs at h with h1 h2
    · cases h
    · cases h
    · cases h
      exact ⟨rfl, rfl, h2⟩
  · cases h
  · split at h <;> cases h
  · split_ifs at h
    · cases h
    · split at h <;> cases h
  · split_ifs at h <;> cases h
  · rename_i hread hwrite _ _
    cases h
    cases todo with
    | cons p todo => cases hask
    | nil =>
      cases op with
      | read key => exact absurd rfl (hread key alive)
      | write key value tombstone => exact absurd rfl (hwrite key value tombstone alive)

theorem serves_deliver {q : ℕ} {key : String} {peer : U64} {alive todo : List U64}
    (h : serves ids c (.deliver q) = true) (hi : i ∈ ids) (ht : c.task i = some t) (hq : t.waiting = some q)
    (hphase : t.phase = .catching (.read key) alive (peer :: todo)) :
    unstaged (recordOf (c.server peer).store key) = true ∨ reached c peer key ≤ reached c i key := by
  have hall := List.all_eq_true.1 h i hi
  rw [ht, Option.all_some, hq, hphase] at hall
  rcases Bool.or_eq_true_iff.1 hall with hne | hread
  · simp at hne
  · rcases Bool.or_eq_true_iff.1 hread with hcom | hle
    · exact Or.inl hcom
    · exact Or.inr (Fin.le_def.1 (of_decide_eq_true hle))

theorem serves_timeout {key : String} {peer : U64} {alive todo : List U64} (h : serves ids c (.timeout i) = true)
    (ht : c.task i = some t) (hphase : t.phase = .catching (.read key) alive (peer :: todo)) :
    reached c peer key ≤ reached c i key := by
  rw [serves, ht, Option.all_some, hphase] at h
  exact Fin.le_def.1 (of_decide_eq_true h)

/-- A read goes on after a `DUMP`, with the answer or without. -/
theorem reads_receive (h : Agreed ids c g) (hl : Linked ids c) (hreads : Reads ids c g i t)
    (ht : c.task i = some t) {q : ℕ} (hq : t.waiting = some q) {answer : Option String} {phase : Phase}
    (hreceive : ((c.server i).receive answer t.phase).2 = .goOn phase)
    (hnews : News ids c g event (c.proceed i t ((c.server i).receive answer t.phase)) g')
    (hline : ∀ {key alive peer todo}, t.phase = .catching (.read key) alive (peer :: todo) →
      (∃ line, answer = some line ∧ .answered q line ∈ c.log) ∨ reached c peer key ≤ reached c i key) :
    Reads ids (c.proceed i t ((c.server i).receive answer t.phase)) g' i ⟨t.conn, phase, none⟩ := by
  refine ⟨fun {key alive todo} hphase => ?_, fun _ hw => (nomatch hw)⟩
  dsimp only at hphase
  subst hphase
  obtain ⟨peer, request, hask, -⟩ := (hl.awaits ht hq).asked
  obtain ⟨hphase, hmerged⟩ := receive_catching hask (Prod.ext rfl hreceive)
  obtain ⟨hlen, hall⟩ := hreads.quorum hphase
  have hgrow := reached_le hnews i key
  refine ⟨hlen, fun n hn htodo => ?_⟩
  dsimp only
  rw [hnews.floor (hl.taken ht).old]
  by_cases hpeer : n = peer
  · subst hpeer
    rcases hline hphase with ⟨line, rfl, hx⟩ | hle
    · rcases hreads.line hphase hq hx with hle | ⟨text, rows, r, hstrip, hrows, hmem, hver⟩
      · exact hle.trans hgrow
      · -- the dump has been merged
        rcases hmerged with ⟨hnone, -⟩ | ⟨text', rows', m, hstrip', hrows', hmerge, hserver⟩
        · rw [Option.bind_some, hstrip] at hnone
          cases hnone
        · rw [Option.bind_some, hstrip] at hstrip'
          cases hstrip'
          rw [hrows] at hrows'
          cases hrows'
          refine hver.trans ?_
          have hstore : ((c.server i).receive (some line) t.phase).1.store = m := congrArg Server.store hserver
          rw [reached, server_proceed, Function.update_self, hstore]
          exact Fin.le_def.1 (reached_of_mergeAll (h.node i).readable hmerge hmem)
    · exact ((floor_le_reached h t.conn n key).trans hle).trans hgrow
  · refine (hall n hn fun hmem => ?_).trans hgrow
    rcases List.mem_cons.1 hmem with heq | hmem
    · exact hpeer heq
    · exact htodo hmem

/-- A read begins to catch up. -/
theorem reads_advance (hids : ids.Nodup) (h : Agreed ids c g) (hl : Linked ids c) (ht : c.task i = some t)
    (hask : t.phase.ask = none) (hserves : serves ids c (.advance i) = true) {s : Server} {phase : Phase}
    (hadvance : (c.server i).advance t.phase = (s, .goOn phase)) :
    Reads ids c' g' i ⟨t.conn, phase, none⟩ := by
  refine ⟨fun {key alive todo} hphase => ?_, fun _ hw => (nomatch hw)⟩
  dsimp only at hphase
  subst hphase
  obtain ⟨hphase, rfl, hquorum⟩ := advance_catching hask hadvance
  refine ⟨?_, fun n hn htodo => absurd hn htodo⟩
  have hlen : (c.server i).peers.length + 1 = ids.length := by
    rw [(h.node i).peers]
    exact length_others hids (hl.member ht)
  rw [serves, ht, Option.all_some, hphase] at hserves
  have hne := of_decide_eq_true hserves
  omega

/-- **Reads stay up to date**, if the step serves them. -/
theorem reads_move (hids : ids.Nodup) (h : Agreed ids c g) (hl : Linked ids c)
    (hreads : ∀ {i t}, c.task i = some t → Reads ids c g i t) (hmove : Move ids c event c')
    (hserves : serves ids c event = true) (hnews : News ids c g event c' g') (ht : c'.task i = some t) :
    Reads ids c' g' i t := by
  -- a task that the step does not touch
  have hother : ∀ {i t}, c.task i = some t → (∀ {key alive peer todo q line},
      t.phase = .catching (.read key) alive (peer :: todo) → t.waiting = some q → .answered q line ∈ c'.log →
        .answered q line ∈ c.log ∨ Delivers (g.floor t.conn peer key) (reached c' i key) key line) →
      Reads ids c' g' i t := fun ht hline => (hreads ht).next hnews (hl.taken ht).old hline
  -- the end of a task is not what another one waits for
  have hwait : ∀ {i j t t' p q line} {P : Prop}, c.task i = some t → c.task j = some t' → t'.waiting = some q →
      .answered q line ∈ (c.proceed i t p).log → .answered q line ∈ c.log ∨ P := by
    intro i j t t' p q line P ht ht' hq hx
    rcases mem_proceed hx with hx | ⟨response, line', -, -, hx⟩
    · exact Or.inl hx
    · cases hx
      exact absurd rfl ((hl.awaits ht' hq).other ht)
  cases hmove with
  | invoke target frame =>
    refine hother ht fun _ _ hx => ?_
    rcases List.mem_append.1 hx with hx | hx
    · exact Or.inl hx
    · cases List.mem_singleton.1 hx
  | @done e s response he hmem hidle hhandle =>
    refine hother ht fun {key alive peer todo q line} hphase hq hx => ?_
    rcases mem_answer.1 hx with hx | ⟨line', hline, hx⟩
    · exact Or.inl hx
    · cases hx
      obtain ⟨peer', request, hask, hall⟩ := (hl.awaits ht hq).asked
      rw [hphase] at hask
      cases hask
      obtain ⟨rfl, hframe⟩ := hall e he rfl
      rw [hframe] at hhandle
      refine Or.inr (Delivers.mono ?_ (reached_le hnews i key))
      exact delivers_of_dump (h.node e.target).readable (floor_le_reached h t.conn e.target key)
        (serves_deliver hserves (hl.member ht) ht hq hphase) hhandle hline
  | @begin e request op he hmem hidle hparse hop =>
    rw [task_setTask] at ht
    split_ifs at ht with hi
    · cases ht
      exact reads_of_other fun _ _ _ heq => (nomatch heq)
    · exact hother ht fun _ _ hx => Or.inl hx
  | @ask j peer t₀ request ht₀ hask hw =>
    rw [task_setTask] at ht
    split_ifs at ht with hj
    · cases ht
      subst hj
      have hold := (hl.taken ht₀).old
      refine ⟨fun {key alive todo} hphase => ?_, fun hphase hq hx => ?_⟩
      · obtain ⟨hlen, hall⟩ := (hreads ht₀).quorum hphase
        refine ⟨hlen, fun n hn htodo => ?_⟩
        dsimp only
        rw [hnews.floor hold]
        exact hall n hn htodo
      · cases hq
        exact absurd (hl.old _ hx) (lt_irrefl _)
    · exact hother ht fun _ _ hx => Or.inl hx
  | @receive j t₀ q line ht₀ hq hline =>
    rcases task_proceed ht with ⟨rfl, phase, hgoOn, rfl⟩ | ⟨hj, ht⟩
    · exact reads_receive h hl (hreads ht₀) ht₀ hq hgoOn hnews fun _ => Or.inl ⟨line, rfl, hline⟩
    · exact hother ht fun _ hq' hx => hwait ht₀ ht hq' hx
  | @timeout j t₀ q ht₀ hq =>
    rcases task_proceed ht with ⟨rfl, phase, hgoOn, rfl⟩ | ⟨hj, ht⟩
    · exact reads_receive h hl (hreads ht₀) ht₀ hq hgoOn hnews fun hphase =>
        Or.inr (serves_timeout hserves ht₀ hphase)
    · exact hother ht fun _ hq' hx => hwait ht₀ ht hq' hx
  | @advance j t₀ ht₀ hask =>
    rcases task_proceed ht with ⟨rfl, phase, hgoOn, rfl⟩ | ⟨hj, ht⟩
    · exact reads_advance hids h hl ht₀ hask hserves (Prod.ext rfl hgoOn)
    · exact hother ht fun _ hq' hx => hwait ht₀ ht hq' hx
  | crash j => exact hother (task_restart ht).2 fun _ _ hx => Or.inl hx
  | @halt j t₀ q rows line ht₀ hq hline => exact hother (task_restart ht).2 fun _ _ hx => Or.inl hx

end Reading

/-! ## The invariant -/

/-- What is known of a write that was acknowledged: it is chosen, a majority has reached its version, and it is not
    below the versions that it found. -/
structure Acked (ids : List U64) (c : Cluster) (g : Ghost) (p : ℕ) (key : String) (version : U64)
    (content : Content) : Prop where
  chosen : Replicas.Chosen ids.toFinset (replicas c.server g.took) key version.val content
  reached : Majority ids.toFinset fun n => version.val ≤ reached c n key
  above : Majority ids.toFinset fun n => g.floor p n key ≤ version.val

/-- What is known of a read that was answered: it is not below the versions that it found, and the value is that
    of a chosen write. -/
def Answered (ids : List U64) (c : Cluster) (g : Ghost) (d q : ℕ) (key line : String) : Prop :=
  ∃ ver, Majority ids.toFinset (fun n => g.floor q n key ≤ ver) ∧ (ver = 0 ∨ ∃ w p frame j, j < d ∧
    c.log[j]? = some (.invoked p frame) ∧ Request.parse frame = .ok (.put key w) ∧
    Replicas.Chosen ids.toFinset (replicas c.server g.took) key ver (false, w) ∧
    Origin c p key ver (false, w) ∧ line = valueLine w)

/-- Acknowledged writes are preserved. -/
structure Preserved (ids : List U64) (c : Cluster) (g : Ghost) : Prop where
  puts : ∀ {q key value tombstone}, Invoked c q (.write key value tombstone) → tombstone = false
  acked : ∀ {p key value tombstone} {version : U64}, .answered p ("OK " ++ version.print) ∈ c.log →
    Invoked c p (.write key value tombstone) → Acked ids c g p key version (tombstone, value)
  below : ∀ {a b : ℕ} {p q frame key value tombstone} {version : U64},
    c.log[a]? = some (.answered p ("OK " ++ version.print)) → Invoked c p (.write key value tombstone) →
    c.log[b]? = some (.invoked q frame) → a < b → Majority ids.toFinset fun n => version.val ≤ g.floor q n key
  origin : ∀ {n key ver content}, (n, key, ver, content) ∈ g.took → ∃ q, Origin c q key ver content
  carried : ∀ {e key version tombstone value}, e ∈ c.envelopes →
    Request.parse e.frame = .ok (.repl key version tombstone value) →
    ∃ q, Origin c q key version.val (tombstone, value)
  reads : ∀ {i t}, c.task i = some t → Reads ids c g i t
  answered : ∀ {d : ℕ} {q line key}, c.log[d]? = some (.answered q line) → Invoked c q (.read key) → IsRead line →
    Answered ids c g d q key line

section Invariant
variable {ids : List U64} {c c' : Cluster} {g g' : Ghost} {event : Event}

theorem getElem?_snoc {log : List Entry} {x y : Entry} {b : ℕ} (h : (log ++ [x])[b]? = some y) :
    log[b]? = some y ∨ b = log.length ∧ y = x := by
  rw [List.getElem?_append] at h
  split_ifs at h with hlt
  · exact Or.inl h
  · rw [List.getElem?_singleton] at h
    split_ifs at h with hb
    exact Or.inr ⟨by omega, (Option.some.inj h).symm⟩

theorem Preserved.start (ids : List U64) : Preserved ids (start ids) ⟨∅, fun _ _ _ => 0⟩ where
  puts := fun ⟨_, _, hx, _⟩ => (nomatch hx)
  acked := fun hx => (nomatch hx)
  below := fun hx => (nomatch hx)
  origin := fun hx => (nomatch hx)
  carried := fun he => (nomatch he)
  reads := fun ht => (nomatch ht)
  answered := fun hx => (nomatch hx)

/-- A client that only writes and reads does not delete. -/
theorem puts_of_putsAndGets {target : U64} {frame : Bytes} {request : Request} {key value : String}
    {tombstone : Bool} (h : putsAndGets (.invoke target frame) = true) (hparse : Request.parse frame = .ok request)
    (hop : request.op = some (.write key value tombstone)) : tombstone = false := by
  rw [putsAndGets, hparse] at h
  cases request with
  | put key' value' =>
    cases hop
    rfl
  | get key' => cases hop
  | _ => cases h

theorem clients_of_putsAndGets (h : putsAndGets event = true) : clients event = true := by
  cases event with
  | invoke target frame =>
    simp only [putsAndGets, clients] at h ⊢
    cases hparse : Request.parse frame with
    | error e => rfl
    | ok request =>
      rw [hparse] at h
      cases request with
      | repl key version tombstone value => cases h
      | commit key version => cases h
      | _ => rfl
  | _ => rfl

theorem Acked.move {p : ℕ} {key : String} {version : U64} {content : Content} (h : Acked ids c g p key version content)
    (hp : p < c.next) (hnews : News ids c g event c' g') : Acked ids c' g' p key version content := by
  refine ⟨h.chosen.mono hnews.grows.took, h.reached.mono fun n _ hn => hn.trans (reached_le hnews n key), ?_⟩
  rw [hnews.floor hp]
  exact h.above

/-- A write that is acknowledged in this step. -/
theorem acked_of_news (hl : Linked ids c) (hnews : News ids c g event c' g') {p : ℕ} {key value : String}
    {tombstone : Bool} {version : U64} (hlog : c'.log = c.log ++ [.answered p ("OK " ++ version.print)])
    (hop : Invoked c p (.write key value tombstone)) : Acked ids c' g' p key version (tombstone, value) := by
  obtain ⟨op, hop', hends⟩ := (hnews.answers hlog).resolve_left (not_prompt version)
  obtain ⟨key', value', tombstone', rfl, hchosen, hsettled, habove⟩ := hends version rfl
  cases hop'.unique hl hop
  refine ⟨hchosen, hsettled.mono fun n _ hn => ?_, habove⟩
  rw [reached, ← version_replicas c'.server g'.took]
  rcases hn with hrec | hlt
  · exact (Replicas.version_of_record hrec).ge
  · exact hlt.le

/-- What was found stays below what is invoked later. -/
theorem below_move (h : Preserved ids c g) (hl : Linked ids c) (hmove : Move ids c event c')
    (hnews : News ids c g event c' g') {a b p q : ℕ} {frame : Bytes} {key value : String} {tombstone : Bool}
    {version : U64} (ha : c'.log[a]? = some (.answered p ("OK " ++ version.print)))
    (hp : Invoked c p (.write key value tombstone)) (hb : c'.log[b]? = some (.invoked q frame)) (hab : a < b) :
    Majority ids.toFinset fun n => version.val ≤ g'.floor q n key := by
  have hold : c.log[a]? = some (.answered p ("OK " ++ version.print)) → c.log[b]? = some (.invoked q frame) →
      Majority ids.toFinset fun n => version.val ≤ g'.floor q n key := by
    intro ha hb
    have hq : q < c.next := hl.old _ (List.mem_of_getElem? hb)
    rw [hnews.floor hq]
    exact h.below ha hp hb hab
  rcases log_move hmove with hlog | ⟨q', line, hlog⟩ | ⟨target, frame', hevent, hlog⟩ <;> rw [hlog] at ha hb
  · exact hold ha hb
  · rcases getElem?_snoc hb with hb | ⟨-, hx⟩
    · rw [List.getElem?_append_left (hab.trans (List.getElem?_eq_some_iff.1 hb).1)] at ha
      exact hold ha hb
    · cases hx
  · rcases getElem?_snoc hb with hb | ⟨rfl, hx⟩
    · rw [List.getElem?_append_left (hab.trans (List.getElem?_eq_some_iff.1 hb).1)] at ha
      exact hold ha hb
    · -- the request finds what a majority has reached
      cases hx
      rw [List.getElem?_append_left hab] at ha
      rw [hnews.invoked hevent]
      refine (h.acked (List.mem_of_getElem? ha) hp).reached.mono fun n _ hn => ?_
      rwa [version_replicas]

/-- A record that is staged by a task, or on its way, has an origin. -/
theorem origin_of_staging (h : Agreed ids c g) (hl : Linked ids c) {i : U64} {t : Task} {key : String}
    {record : ReplicaValue} {todo staged : List U64} (ht : c.task i = some t)
    (hphase : t.phase = .staging key record todo staged) :
    Origin c t.conn key record.version.val (record.tombstone, record.value) := by
  obtain ⟨op, hop, hrelies⟩ := (h.task ht).relies
  rw [hphase] at hrelies
  obtain ⟨rfl, -⟩ := hrelies
  refine origin_of_task hl ht hop ?_
  rw [hphase]
  exact ⟨rfl, rfl⟩

theorem origin_of_ask (h : Agreed ids c g) (hl : Linked ids c) {i peer : U64} {t : Task} {key value : String}
    {version : U64} {tombstone : Bool} (ht : c.task i = some t)
    (hask : t.phase.ask = some (peer, .repl key version tombstone value)) :
    Origin c t.conn key version.val (tombstone, value) := by
  cases hphase : t.phase with
  | pinging op todo alive => rw [hphase] at hask; cases todo <;> cases hask
  | catching op alive todo => rw [hphase] at hask; cases todo <;> cases hask
  | committing key' version' todo acknowledgements => rw [hphase] at hask; cases todo <;> cases hask
  | staging key' record todo staged =>
    have horigin := origin_of_staging h hl ht hphase
    rw [hphase] at hask
    cases todo with
    | nil => cases hask
    | cons p todo =>
      cases hask
      exact horigin

theorem origin_move (h : Preserved ids c g) (hagreed : Agreed ids c g) (hl : Linked ids c)
    (hmove : Move ids c event c') (hnews : News ids c g event c' g') {n : U64} {key : String} {ver : ℕ}
    {content : Content} (hx : (n, key, ver, content) ∈ g'.took) : ∃ q, Origin c' q key ver content := by
  rcases hnews.taken hx with hx | ⟨e, he, version, tombstone, value, hparse, rfl, rfl⟩ |
    ⟨i, t, record, todo, staged, ht, hphase, rfl, rfl⟩
  · obtain ⟨q, hq⟩ := h.origin hx
    exact ⟨q, hq.move hl hmove⟩
  · obtain ⟨q, hq⟩ := h.carried he hparse
    exact ⟨q, hq.move hl hmove⟩
  · exact ⟨t.conn, (origin_of_staging hagreed hl ht hphase).move hl hmove⟩

theorem carried_move (h : Preserved ids c g) (hagreed : Agreed ids c g) (hl : Linked ids c)
    (hmove : Move ids c event c') (hclients : clients event = true) {e : Envelope} {key value : String}
    {version : U64} {tombstone : Bool} (he : e ∈ c'.envelopes)
    (hparse : Request.parse e.frame = .ok (.repl key version tombstone value)) :
    ∃ q, Origin c' q key version.val (tombstone, value) := by
  rcases envelope_move hmove he with he | ⟨target, rfl⟩ | ⟨i, t, peer, request, ht, hask, hframe⟩
  · obtain ⟨q, hq⟩ := h.carried he hparse
    exact ⟨q, hq.move hl hmove⟩
  · rw [clients, hparse] at hclients
    cases hclients
  · rw [hframe] at hparse
    cases eq_of_parse_line hparse
    exact ⟨t.conn, (origin_of_ask hagreed hl ht hask).move hl hmove⟩

/-- The end of a read: its server has reached what a majority had, and its record is chosen. -/
theorem answered_of_read (hids : ids.Nodup) (h : Preserved ids c g) (hagreed : Agreed ids c g) (hl : Linked ids c)
    {i : U64} {t : Task} {key : String} {alive : List U64} (ht : c.task i = some t)
    (hphase : t.phase = .catching (.read key) alive [])
    (hserves : serves ids c (.advance i) = true) :
    Answered ids c g c.log.length t.conn key (readLine (recordOf (c.server i).store key)) := by
  obtain ⟨op, hop, hrelies⟩ := (hagreed.task ht).relies
  rw [hphase] at hrelies
  obtain ⟨-, hpeers⟩ := hrelies
  obtain ⟨hlen, hall⟩ := (h.reads ht).quorum hphase
  have hunstaged : unstaged (recordOf (c.server i).store key) = true := by
    rw [serves, ht, Option.all_some, hphase] at hserves
    exact hserves
  refine ⟨reached c i key, hpeers.majority hids (hl.member ht) hlen (floor_le_reached hagreed t.conn i key)
    fun n hn => hall n hn (fun hx => (nomatch hx)), ?_⟩
  cases hrec : recordOf (c.server i).store key with
  | none =>
    left
    rw [reached, versionOf, hrec]
    rfl
  | some r =>
    right
    have hcom : r.committed = true := by rwa [hrec] at hunstaged
    have hver : reached c i key = r.version.val := by rw [reached, versionOf, hrec]; rfl
    have hchosen := hagreed.sound.chosen (record_replicas g.took hrec) hcom
    obtain ⟨n, -, htook, -⟩ := Majority.meet hchosen hchosen
    obtain ⟨p, hp⟩ := h.origin htook
    have htomb : r.tombstone = false := h.puts hp.invoked
    obtain ⟨frame, request, hlog, hparse, hput⟩ := hp.invoked
    obtain ⟨j, hj⟩ := List.mem_iff_getElem?.1 hlog
    have hrequest : request = .put key r.value := by
      change request.op = some (.write key r.value r.tombstone) at hput
      rw [htomb] at hput
      cases request with
      | put key' value' =>
        cases hput
        rfl
      | delete key' => simp [Request.op] at hput
      | _ => cases hput
    change Replicas.Chosen _ _ key r.version.val (r.tombstone, r.value) at hchosen
    change Origin c p key r.version.val (r.tombstone, r.value) at hp
    rw [htomb] at hchosen hp
    rw [hver]
    refine ⟨r.value, p, frame, j, (List.getElem?_eq_some_iff.1 hj).1, hj, hrequest ▸ hparse, hchosen, hp, ?_⟩
    rw [readLine, hcom, htomb]
    rfl

theorem Answered.move {d q : ℕ} {key line : String} (h : Answered ids c g d q key line) (hl : Linked ids c)
    (hq : q < c.next) (hmove : Move ids c event c') (hnews : News ids c g event c' g') :
    Answered ids c' g' d q key line := by
  obtain ⟨new, hnew⟩ := log_subset_move hmove
  obtain ⟨ver, hmaj, hzero | ⟨w, p, frame, j, hjd, hj, hparse, hchosen, horigin, hline⟩⟩ := h
  · exact ⟨ver, by rwa [hnews.floor hq], Or.inl hzero⟩
  · refine ⟨ver, by rwa [hnews.floor hq], Or.inr ⟨w, p, frame, j, hjd, ?_, hparse, hchosen.mono hnews.grows.took,
      horigin.move hl hmove, hline⟩⟩
    rw [hnew, List.getElem?_append_left (List.getElem?_eq_some_iff.1 hj).1]
    exact hj

/-- A read that is answered in this step. -/
theorem answered_of_move (hids : ids.Nodup) (h : Preserved ids c g) (hagreed : Agreed ids c g) (hl : Linked ids c)
    (hmove : Move ids c event c') (hnews : News ids c g event c' g') (hserves : serves ids c event = true)
    {q : ℕ} {key line : String} (hlog : c'.log = c.log ++ [.answered q line]) (hop : Invoked c q (.read key))
    (hread : IsRead line) : Answered ids c' g' c.log.length q key line := by
  have hinit := initial_of_isRead hread
  have herror : ∀ {e : Fault}, answerLine (.error e) = some line → False := by
    intro e he
    rcases hinit with h | h <;> rw [initial_error he] at h <;> cases h
  have hsame : ∀ {log : List Entry}, log ≠ log ++ [.answered q line] := fun heq => by simp at heq
  have hquiet : ∀ {i t p}, (∀ response, p.2 = Next.finish response → ∃ e, response = .error e) →
      (c.proceed i t p).log ≠ c.log ++ [.answered q line] := by
    rintro i t ⟨s, next⟩ hp heq
    cases next with
    | goOn phase => exact hsame heq
    | finish response =>
      obtain ⟨e, rfl⟩ := hp response rfl
      exact herror (log_answer_eq heq).1
  cases hmove with
  | invoke target frame => cases List.append_cancel_left hlog
  | @done e s response he hmem hidle hhandle =>
    obtain ⟨took', hh⟩ := handles (hagreed.node e.target).readable hagreed.sound
      (fun hparse => hagreed.carries he hparse) hhandle
    rcases hh.answer (log_answer_eq hlog).1 with rfl | h | h | h
    · rcases hinit with h | h <;> cases h
    all_goals rcases hinit with h' | h' <;> rw [h] at h' <;> cases h'
  | begin he hmem hidle hparse hop => exact absurd hlog hsame
  | ask ht hask hw => exact absurd hlog hsame
  | receive ht hq hline => exact absurd hlog (hquiet fun response heq => receive_finish (Prod.ext rfl heq))
  | timeout ht hq => exact absurd hlog (hquiet fun response heq => receive_finish (Prod.ext rfl heq))
  | crash i => exact absurd hlog hsame
  | halt ht hq hline => exact absurd hlog hsame
  | @advance i t ht hask =>
    have hstep : Move ids c (.advance i) _ := .advance ht hask
    cases hp : (c.server i).advance t.phase with
    | mk s next =>
      rw [hp] at hlog hnews hstep
      cases next with
      | goOn phase => exact absurd hlog hsame
      | finish response =>
        obtain ⟨hline, rfl⟩ := log_answer_eq hlog
        obtain ⟨key', alive, hphase, -, rfl⟩ := read_of_advance hp hline hread
        obtain ⟨op, hop', hrelies⟩ := (hagreed.task ht).relies
        rw [hphase] at hrelies
        obtain ⟨rfl, -⟩ := hrelies
        cases hop'.unique hl hop
        rw [(hagreed.node i).readable.read key] at hline
        cases hline
        exact (answered_of_read hids h hagreed hl ht hphase hserves).move hl (hl.taken ht).old hstep hnews

/-- **One step preserves acknowledged writes.** -/
theorem Preserved.move (hids : ids.Nodup) (h : Preserved ids c g) (hagreed : Agreed ids c g) (hl : Linked ids c)
    (hmove : Move ids c event c') (hputs : putsAndGets event = true) (hserves : serves ids c event = true)
    (hnews : News ids c g event c' g') : Preserved ids c' g' := by
  have hclients := clients_of_putsAndGets hputs
  -- a request that was answered before is not invoked now
  have hback : ∀ {q op line}, .answered q line ∈ c'.log → Invoked c' q op → Invoked c q op := by
    intro q op line hx hop
    rcases invoked_move hmove hop with hop | ⟨rfl, target, frame, request, rfl, -⟩
    · exact hop
    · cases hmove
      rcases List.mem_append.1 hx with hx | hx
      · exact absurd (hl.old _ hx) (lt_irrefl _)
      · cases List.mem_singleton.1 hx
  constructor
  · intro q key value tombstone hop
    rcases invoked_move hmove hop with hop | ⟨-, target, frame, request, rfl, hparse, hop⟩
    · exact h.puts hop
    · exact puts_of_putsAndGets hputs hparse hop
  · intro p key value tombstone version hx hop
    have hop := hback hx hop
    rcases answered_move hmove hx with hx | hlog
    · exact (h.acked hx hop).move (hl.old _ hx) hnews
    · exact acked_of_news hl hnews hlog hop
  · intro a b p q frame key value tombstone version ha hop hb hab
    exact below_move h hl hmove hnews ha (hback (List.mem_of_getElem? ha) hop) hb hab
  · intro n key ver content hx
    exact origin_move h hagreed hl hmove hnews hx
  · intro e key version tombstone value he hparse
    exact carried_move h hagreed hl hmove hclients he hparse
  · intro i t ht
    exact reads_move hids hagreed hl h.reads hmove hserves hnews ht
  · intro d q line key hx hop hread
    have hop := hback (List.mem_of_getElem? hx) hop
    have hold : c.log[d]? = some (.answered q line) → Answered ids c' g' d q key line := fun hx =>
      (h.answered hx hop hread).move hl (hl.old _ (List.mem_of_getElem? hx)) hmove hnews
    rcases log_move hmove with hlog | ⟨q', line', hlog⟩ | ⟨target, frame, -, hlog⟩ <;> rw [hlog] at hx
    · exact hold hx
    · rcases getElem?_snoc hx with hx | ⟨rfl, hnew⟩
      · exact hold hx
      · rw [← hnew] at hlog
        exact answered_of_move hids h hagreed hl hmove hnews hserves hlog hop hread
    · rcases getElem?_snoc hx with hx | ⟨-, hnew⟩
      · exact hold hx
      · cases hnew

end Invariant

/-! ## Runs -/

/-- No acknowledged write is lost: a `GET` that is invoked after a `PUT` was answered `OK` is answered with the value
    of that `PUT`, or of one that was not acknowledged before the `PUT` was invoked. -/
def NoLostWrite (c : Cluster) : Prop :=
  ∀ (i a b d p q : ℕ) (frame frame' : Bytes) (key value line : String) (version : U64),
    c.log[i]? = some (.invoked p frame) → Request.parse frame = .ok (.put key value) →
    c.log[a]? = some (.answered p ("OK " ++ version.print)) →
    c.log[b]? = some (.invoked q frame') → Request.parse frame' = .ok (.get key) → a < b →
    c.log[d]? = some (.answered q line) → IsRead line →
    ∃ w, line = valueLine w ∧ (w = value ∨ ∃ (p' j : ℕ) (frame'' : Bytes), j < d ∧
      c.log[j]? = some (.invoked p' frame'') ∧ Request.parse frame'' = .ok (.put key w) ∧
      ∀ (a' : ℕ) (version' : U64), a' < i → c.log[a']? ≠ some (.answered p' ("OK " ++ version'.print)))

section Runs
variable {ids : List U64} {c : Cluster} {g : Ghost} {steps : Steps}

theorem Preserved.noLostWrite (h : Preserved ids c g) (hagreed : Agreed ids c g) : NoLostWrite c := by
  intro i a b d p q frame frame' key value line version hput hparse hack hget hparse' hab hanswer hread
  have hp : Invoked c p (.write key value false) := ⟨frame, _, List.mem_of_getElem? hput, hparse, rfl⟩
  have hq : Invoked c q (.read key) := ⟨frame', _, List.mem_of_getElem? hget, hparse', rfl⟩
  have hacked := h.acked (List.mem_of_getElem? hack) hp
  obtain ⟨ver, hmaj, hvalue⟩ := h.answered hanswer hq hread
  -- the read is not below the write
  obtain ⟨n, -, hle₁, hle₂⟩ := Majority.meet (h.below hack hp hget hab) hmaj
  have hle : version.val ≤ ver := hle₁.trans hle₂
  obtain ⟨m, -, htook, -⟩ := Majority.meet hacked.chosen hacked.chosen
  have hpos : 0 < version.val := hagreed.sound.pos htook
  rcases hvalue with rfl | ⟨w, p', frame'', j, hjd, hj, hparse'', hchosen, horigin, hline⟩
  · omega
  refine ⟨w, hline, ?_⟩
  by_cases hbefore : ∃ (a' : ℕ) (version' : U64), a' < i ∧
      c.log[a']? = some (.answered p' ("OK " ++ version'.print))
  · -- a write that was acknowledged before the first one was invoked is not above it
    obtain ⟨a', version', hlt, hack'⟩ := hbefore
    have hver : version'.val = ver := horigin.answer (List.mem_of_getElem? hack')
    obtain ⟨n', -, h1, h2⟩ := Majority.meet (h.below hack' horigin.invoked hput hlt) hacked.above
    have heq : version.val = ver := le_antisymm hle (hver ▸ h1.trans h2)
    rw [← heq] at hchosen
    exact Or.inl (Prod.mk.inj (hagreed.sound.chosen_unique hchosen hacked.chosen)).2
  · refine Or.inr ⟨p', j, frame'', hjd, hj, hparse'', fun a' version' hlt heq => ?_⟩
    exact hbefore ⟨a', version', hlt, heq⟩

/-- **Every run preserves acknowledged writes**, if its steps keep what is staged and serve what is read. -/
theorem run_preserved (hids : ids.Nodup) (hrun : Run ids (start ids) steps c)
    (hputs : Meets (fun _ => putsAndGets) steps) (hkeeps : Meets (keeps ids) steps)
    (hserves : Meets (serves ids) steps) : Linked ids c ∧ ∃ g, Agreed ids c g ∧ Preserved ids c g := by
  induction hrun with
  | refl => exact ⟨.start ids, _, .start ids, .start ids⟩
  | @step c₀ c₁ event rest _ hstep ih =>
    obtain ⟨hl, g, hagreed, hg⟩ := ih (fun p hp => hputs p (List.mem_cons_of_mem _ hp))
      (fun p hp => hkeeps p (List.mem_cons_of_mem _ hp)) fun p hp => hserves p (List.mem_cons_of_mem _ hp)
    have hmove := move_of_step hstep
    have hput : putsAndGets event = true := hputs _ List.mem_cons_self
    obtain ⟨g', hagreed', hnews⟩ := hagreed.move hids hl hmove (clients_of_putsAndGets hput)
      (hkeeps _ List.mem_cons_self)
    exact ⟨hl.move hmove, g', hagreed',
      hg.move hids hagreed hl hmove hput (hserves _ List.mem_cons_self) hnews⟩

/-- **No acknowledged write is lost** in a run of `PUT`s and `GET`s in which no server is told that a peer has staged
    its record when the peer has kept another one, and every read has more than half of the nodes, misses no newer
    record of theirs, and does not end at a record that is only staged. -/
theorem no_lost_write (hids : ids.Nodup) (hrun : Run ids (start ids) steps c)
    (hputs : Meets (fun _ => putsAndGets) steps) (hkeeps : Meets (keeps ids) steps)
    (hserves : Meets (serves ids) steps) : NoLostWrite c := by
  obtain ⟨-, g, hagreed, hg⟩ := run_preserved hids hrun hputs hkeeps hserves
  exact hg.noLostWrite hagreed

/-! ## A read after a failed write -/

/-- A `PUT` of three servers, with all answers. -/
def written : List Event :=
  [.invoke 1 (utf8 (Request.put "k" "a").line), .deliver 0] ++ exchange 1 1 ++ exchange 1 2 ++ [.advance 1] ++
    exchange 1 3 ++ exchange 1 4 ++ [.advance 1] ++ exchange 1 5 ++ exchange 1 6 ++ [.advance 1] ++
    exchange 1 7 ++ exchange 1 8 ++ [.advance 1]

/-- Then the first server stops, and the second is asked for the value. -/
def writtenRead : List Event :=
  written ++ [.crash 1, .invoke 2 (utf8 (Request.get "k").line), .deliver 9] ++ lost 2 ++ exchange 2 11 ++
    [.advance 2] ++ exchange 2 12 ++ [.advance 2]

/-- The first server stages a second `PUT` on the second one only, and stops; then the second is asked. -/
def stagedRead : List Event :=
  written ++ [.invoke 1 (utf8 (Request.put "k" "b").line), .deliver 9] ++ exchange 1 10 ++ exchange 1 11 ++
    [.advance 1] ++ exchange 1 12 ++ exchange 1 13 ++ [.advance 1] ++ exchange 1 14 ++
    [.crash 1, .invoke 2 (utf8 (Request.get "k").line), .deliver 15] ++ lost 2 ++ exchange 2 17 ++ [.advance 2] ++
    exchange 2 18 ++ [.advance 2]

theorem no_lost_write_writtenRead : ∃ steps c, Run [1, 2, 3] (start [1, 2, 3]) steps c ∧
    .answered 0 "OK 1" ∈ c.log ∧ c.log.getLast? = some (.answered 9 (valueLine "a")) ∧ NoLostWrite c := by
  have hexec : (execute [1, 2, 3] (fun c e => putsAndGets e && keeps [1, 2, 3] c e && serves [1, 2, 3] c e)
      writtenRead (start [1, 2, 3])).map (fun c => (decide (.answered 0 "OK 1" ∈ c.log), c.log.getLast?)) =
      some (true, some (.answered 9 (valueLine "a"))) := by decide +kernel
  obtain ⟨c, hc, hlog⟩ := Option.map_eq_some_iff.1 hexec
  obtain ⟨hack, hlast⟩ := Prod.mk.inj hlog
  obtain ⟨steps, hrun, hmeets⟩ := run_execute (.refl _) (fun p hp => (nomatch hp)) hc
  have hall : ∀ p ∈ steps, (putsAndGets p.2 = true ∧ keeps [1, 2, 3] p.1 p.2 = true) ∧
      serves [1, 2, 3] p.1 p.2 = true := by
    intro p hp
    rw [← Bool.and_eq_true_iff, ← Bool.and_eq_true_iff]
    exact hmeets p hp
  exact ⟨steps, c, hrun, of_decide_eq_true hack, hlast, no_lost_write (by decide) hrun
    (fun p hp => (hall p hp).1.1) (fun p hp => (hall p hp).1.2) fun p hp => (hall p hp).2⟩

/-- The read is answered `NIL`. -/
theorem not_noLostWrite_stagedRead : ¬ ∀ ids steps c, ids.Nodup → 3 ≤ ids.length → Run ids (start ids) steps c →
    Meets (fun _ => putsAndGets) steps → NoLostWrite c := by
  intro h
  have hexec : (execute [1, 2, 3] (fun _ => putsAndGets) stagedRead (start [1, 2, 3])).map
      (fun c => (c.log[0]?, c.log[9]?, c.log[16]?, c.log[19]?)) =
      some (some (.invoked 0 (utf8 (Request.put "k" "a").line)), some (.answered 0 "OK 1"),
        some (.invoked 15 (utf8 (Request.get "k").line)), some (.answered 15 "NIL")) := by decide +kernel
  obtain ⟨c, hc, hlog⟩ := Option.map_eq_some_iff.1 hexec
  simp only [Prod.mk.injEq] at hlog
  obtain ⟨h1, h2, h3, h4⟩ := hlog
  obtain ⟨steps, hrun, hmeets⟩ := run_execute (.refl _) (fun p hp => (nomatch hp)) hc
  obtain ⟨w, hline, -⟩ := h [1, 2, 3] steps c (by decide) (by decide) hrun hmeets 0 9 16 19 0 15 _ _ "k" "a" "NIL" 1
    h1 (Request.parse_line (by decide)) (by rw [h2]; decide) h3 (Request.parse_line (by decide)) (by decide) h4
    (Or.inl rfl)
  have hinit : initial (valueLine w) = some 'V' := initial_append rfl
  rw [← hline] at hinit
  cases hinit

end Runs

end Cluster

end NutDb.Server
