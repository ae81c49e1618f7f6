/-
  The cluster as a map (`src/server.rs`).

  Requests are served one at a time, by an odd number of servers.  Between two
  requests, links may fail and come back, peers may be blocked, and servers may
  start again.  Then the answers are those of one map, which a request changes
  exactly if it is answered with `OK` (`rounds_serial`).

  `Settled`: every record is committed, and `latest` has the newest one of each
  key, which a majority holds.  A server that goes on with a request has a
  majority of peers, and gets the newest records from them.
-/
import NutDb.Lib.Quorum
import NutDb.Lib.Serial
import NutDb.Lib.Trace
import NutDb.Server.Rounds

namespace NutDb.Server

open Lib

/-! ## Records behind the newest ones -/

/-- The records of a server are committed, and each is the newest one of its key, or older. -/
def Behind (latest f : String → Option ReplicaValue) : Prop :=
  ∀ key r, f key = some r → r.committed = true ∧ ∃ l, latest key = some l ∧ (r = l ∨ r.version < l.version)

/-- A step from `f` to `f'` keeps the newest records. -/
def KeepsLatest (latest f f' : String → Option ReplicaValue) : Prop :=
  ∀ key l, latest key = some l → f key = some l → f' key = some l

section Behind
variable {latest f f' : String → Option ReplicaValue} {key : String} {r l : ReplicaValue} {m m' : Records}

/-- The newest record stays. -/
theorem newer_latest (hl : l.committed = true) (hr : r = l ∨ r.version < l.version) : newer (some l) r = l := by
  have hnot : replaces l r = false := by
    rw [← Bool.not_eq_true, replaces_iff, not_lt]
    rcases hr with rfl | hlt
    · exact le_rfl
    · exact le_of_lt (Prod.Lex.left _ _ hlt)
  rw [newer, if_neg (by rw [hnot]; exact Bool.false_ne_true)]

/-- **A record of another server** is merged. -/
theorem Behind.merged (h : Behind latest f) (hr : r.committed = true)
    (hl : ∃ l, latest key = some l ∧ (r = l ∨ r.version < l.version)) :
    Behind latest (Function.update f key (some (newer (f key) r))) ∧
      KeepsLatest latest f (Function.update f key (some (newer (f key) r))) := by
  constructor
  · intro k r' hk
    by_cases hkey : k = key
    · subst hkey
      rw [Function.update_self] at hk
      obtain rfl := Option.some.inj hk
      cases hf : f k with
      | none => exact ⟨hr, hl⟩
      | some current =>
        rw [newer]
        split_ifs
        · exact ⟨hr, hl⟩
        · exact h k current hf
    · rw [Function.update_of_ne hkey] at hk
      exact h k r' hk
  · intro k l' hlatest hf
    by_cases hkey : k = key
    · subst hkey
      obtain ⟨l, hl, hrl⟩ := hl
      obtain rfl : l' = l := Option.some.inj (hlatest.symm.trans hl)
      rw [Function.update_self, hf, newer_latest (h k l' hf).1 hrl]
    · rw [Function.update_of_ne hkey]
      exact hf

theorem KeepsLatest.refl (latest f : String → Option ReplicaValue) : KeepsLatest latest f f := fun _ _ _ h => h

theorem KeepsLatest.trans {f'' : String → Option ReplicaValue} (h : KeepsLatest latest f f')
    (h' : KeepsLatest latest f' f'') : KeepsLatest latest f f'' :=
  fun key l hl hf => h' key l hl (h key l hl hf)

/-- **The records of a dump** are merged, all of them or the first ones. -/
theorem mergeAll_behind {rows : List (String × ReplicaValue)} (hm : Decodes m f) (hf : Behind latest f)
    (hrows : ∀ key r, (key, r) ∈ rows → r.committed = true ∧
      ∃ l, latest key = some l ∧ (r = l ∨ r.version < l.version)) :
    ∃ f', Decodes (mergeAll m rows).1 f' ∧ Behind latest f' ∧ KeepsLatest latest f f' := by
  induction rows generalizing m f with
  | nil => exact ⟨f, hm, hf, .refl _ _⟩
  | cons row rows ih =>
    obtain ⟨key, r⟩ := row
    obtain ⟨hr, hl⟩ := hrows key r List.mem_cons_self
    rw [mergeAll]
    rcases hmerge : merge m key r with e | m₁
    · exact ⟨f, hm, hf, .refl _ _⟩
    · obtain ⟨hf₁, hkeep₁⟩ := hf.merged hr hl
      obtain ⟨f', hm', hf', hkeep⟩ := ih (hm.merge hmerge) hf₁ fun k r' hmem => hrows k r' (List.mem_cons_of_mem _ hmem)
      exact ⟨f', hm', hf', hkeep₁.trans hkeep⟩

/-- **Catching up**, to its end or not. -/
theorem catchUp_behind {net : Network} {held : U64 → String → Option ReplicaValue}
    (hheld : ∀ peer, Decodes (net.server peer).store (held peer)) (hbehind : ∀ peer, Behind latest (held peer))
    (peers : List U64) (hm : Decodes m f) (hf : Behind latest f) :
    ∃ f', Decodes (catchUp net peers m).1 f' ∧ Behind latest f' ∧ KeepsLatest latest f f' := by
  induction peers generalizing m f with
  | nil => exact ⟨f, hm, hf, .refl _ _⟩
  | cons peer peers ih =>
    rw [catchUp]
    rcases ask_dump (hheld peer) with hask | ⟨text, rows, hask, hdec, hrows⟩
    · rw [hask]
      exact ih hm hf
    · have hheld : ∀ key r, (key, r) ∈ rows → held peer key = some r := by
        intro key r hrow
        rw [← mem_rowsOf, hrows] at hrow
        exact (Option.filter_eq_some_iff.1 (Option.mem_toList.1 hrow)).1
      simp only [hask, Option.bind_some, stripPrefix_append, hdec]
      obtain ⟨f₁, hm₁, hf₁, hkeep₁⟩ := mergeAll_behind hm hf fun key r hrow => hbehind peer key r (hheld key r hrow)
      rcases hmerge : mergeAll m rows with ⟨m₁, e | u⟩
      · rw [hmerge] at hm₁
        exact ⟨f₁, hm₁, hf₁, hkeep₁⟩
      · rw [hmerge] at hm₁
        obtain ⟨f', hm', hf', hkeep⟩ := ih hm₁ hf₁
        exact ⟨f', hm', hf', hkeep₁.trans hkeep⟩

/-- A record that reaches the newest one is the newest one. -/
theorem Behind.eq_of_reaches (h : Behind latest f) (hl : latest key = some l) (hreach : Reaches (f key) l) :
    f key = some l := by
  obtain ⟨r, hr, hrank⟩ := hreach
  obtain ⟨-, l', hl', hcases⟩ := h key r hr
  obtain rfl : l = l' := Option.some.inj (hl.symm.trans hl')
  rcases hcases with rfl | hlt
  · exact hr
  · exact absurd (version_le_of_rank hrank) (not_le.2 hlt)

theorem Behind.eq_none (h : Behind latest f) (hl : latest key = none) : f key = none := by
  cases hf : f key with
  | none => rfl
  | some r =>
    obtain ⟨-, l, hl', -⟩ := h key r hf
    rw [hl] at hl'
    cases hl'

end Behind

/-! ## Settled servers -/

/-- Every record is committed, and a majority has the newest ones. -/
structure Settled (ids : List U64) (w : Servers) (latest : String → Option ReplicaValue)
    (held : U64 → String → Option ReplicaValue) : Prop where
  id : ∀ i, (w i).id = i
  peers : ∀ i, (w i).peers = ids.filter fun peer => decide (peer ≠ i)
  decodes : ∀ i, Decodes (w i).store (held i)
  behind : ∀ i, Behind latest (held i)
  majority : ∀ key l, latest key = some l → Majority ids.toFinset fun i => held i key = some l

/-- A server without its records has not changed. -/
structure SameServer (s s' : Server) : Prop where
  id : s'.id = s.id
  peers : s'.peers = s.peers

section Settled
variable {ids : List U64} {w w' : Servers} {latest : String → Option ReplicaValue}
  {held : U64 → String → Option ReplicaValue} {i peer : U64} {up : U64 → Bool} {key : String}

theorem settled_fresh (ids : List U64) : Settled ids (freshServers ids) (fun _ => none) fun _ _ => none where
  id _ := rfl
  peers _ := rfl
  decodes _ := Decodes.empty
  behind _ _ _ h := nomatch h
  majority _ _ h := nomatch h

/-- **A server has merged records**, or has been told which peers are blocked. -/
theorem Settled.update (h : Settled ids w latest held) {s : Server} {f : String → Option ReplicaValue}
    (hsame : SameServer (w i) s) (hdec : Decodes s.store f) (hbehind : Behind latest f)
    (hkeep : KeepsLatest latest (held i) f) :
    Settled ids (Function.update w i s) latest (Function.update held i f) where
  id j := by
    by_cases hj : j = i
    · rw [hj, Function.update_self, hsame.id, h.id]
    · rw [Function.update_of_ne hj, h.id]
  peers j := by
    by_cases hj : j = i
    · rw [hj, Function.update_self, hsame.peers, h.peers]
    · rw [Function.update_of_ne hj, h.peers]
  decodes j := by
    by_cases hj : j = i
    · rw [hj, Function.update_self, Function.update_self]
      exact hdec
    · rw [Function.update_of_ne hj, Function.update_of_ne hj]
      exact h.decodes j
  behind j := by
    by_cases hj : j = i
    · rw [hj, Function.update_self]
      exact hbehind
    · rw [Function.update_of_ne hj]
      exact h.behind j
  majority key l hl := (h.majority key l hl).mono fun j _ hj => by
    by_cases hji : j = i
    · rw [hji, Function.update_self]
      exact hkeep key l hl (hji ▸ hj)
    · rw [Function.update_of_ne hji]
      exact hj

/-- **Requests that leave the records alone**, and restarts. -/
theorem Settled.update_same (h : Settled ids w latest held) {s : Server} (hsame : SameServer (w i) s)
    (hstore : s.store = (w i).store) : Settled ids (Function.update w i s) latest held := by
  have hup := h.update hsame (hstore ▸ h.decodes i) (h.behind i) (.refl _ _)
  rwa [Function.update_eq_self] at hup

/-- The peers of a server are the others. -/
theorem Settled.mem_peers (h : Settled ids w latest held) : peer ∈ (w i).peers ↔ peer ∈ ids ∧ peer ≠ i := by
  rw [h.peers, List.mem_filter, decide_eq_true_eq]

theorem Settled.nodup_peers (h : Settled ids w latest held) (hnodup : ids.Nodup) : (w i).peers.Nodup := by
  rw [h.peers]
  exact hnodup.filter _

theorem alivePeers_sublist (s : Server) (net : Network) : (s.alivePeers net).Sublist s.peers :=
  List.filter_sublist.trans List.filter_sublist

/-- A peer that is alive can be reached. -/
theorem up_of_alive (hp : peer ∈ (w i).alivePeers (links up w)) : up peer = true := by
  have hping := of_decide_eq_true (List.mem_filter.1 hp).2
  cases hup : up peer with
  | true => rfl
  | false =>
    rw [Network.ask, if_neg (by simp [links, hup])] at hping
    cases hping

/-- All dumps fit into frames. -/
def DumpsFit (ids : List U64) (w : Servers) : Prop :=
  ∀ i ∈ ids, ∀ text, dump (w i).store = .ok text → (utf8 ("DUMP " ++ text)).length ≤ MAX_FRAME

theorem dumpsFit_iff : (ids.all fun i => (dump (w i).store).toOption.all fun text =>
    decide ((utf8 ("DUMP " ++ text)).length ≤ MAX_FRAME)) = true ↔ DumpsFit ids w := by
  refine List.all_eq_true.trans (forall₂_congr fun i _ => ?_)
  cases dump (w i).store with
  | error e => exact iff_of_true rfl fun text h => nomatch h
  | ok text => exact decide_eq_true_iff.trans ⟨fun h text' htext => Except.ok.inj htext ▸ h, fun h => h text rfl⟩

instance : Decidable (DumpsFit ids w) := decidable_of_iff _ dumpsFit_iff

/-- A peer that is alive answers a `DUMP`. -/
theorem Settled.dump_isSome (h : Settled ids w latest held) (hfit : DumpsFit ids w)
    (hp : peer ∈ (w i).alivePeers (links up w)) : ((links up w).ask peer .dump).isSome := by
  obtain ⟨text, -, hdump, -, -⟩ := (h.decodes peer).dump
  have hmem := h.mem_peers.1 ((alivePeers_sublist _ _).subset hp)
  have hhandle : ((w peer).handle (utf8 Request.dump.line)).2 = .done (.ok ("DUMP " ++ text)) := by
    rw [handle, Request.parse_line (by decide)]
    simp only [perform, hdump]
    rfl
  have hline : (utf8 Request.dump.line).length ≤ MAX_FRAME := by decide
  have hpass : (links up w).passes peer .dump = true := by
    simp only [links, up_of_alive hp, hline, decide_true, Bool.and_self]
  have hserver : (links up w).server peer = w peer := rfl
  rw [Network.ask, if_pos hpass, hserver, hhandle]
  simp only [answerLine, Option.filter_some, hfit peer hmem.1 text hdump, decide_true, if_true, Option.isSome_some]

/-- With a majority of peers, a server is a majority. -/
theorem Settled.majority_of_alive (h : Settled ids w latest held) (hnodup : ids.Nodup) (hi : i ∈ ids)
    (hodd : Odd ids.length) {alive : List U64} (hsub : alive.Sublist (w i).peers)
    (hquorum : ¬ alive.length + 1 ≤ (w i).peers.length / 2) :
    Majority ids.toFinset (fun j => j = i ∨ j ∈ alive) ∧ (w i).peers.length + 1 < (alive.length + 1) * 2 := by
  have hlen : (w i).peers.length + 1 = ids.length := by rw [h.peers, length_others hnodup hi]
  obtain ⟨k, hk⟩ := hodd
  have hmore : (w i).peers.length + 1 < (alive.length + 1) * 2 := by omega
  refine ⟨⟨insert i alive.toFinset, ?_, ?_, fun j hj => ?_⟩, hmore⟩
  · refine Finset.insert_subset (List.mem_toFinset.2 hi) fun j hj => ?_
    exact List.mem_toFinset.2 (h.mem_peers.1 (hsub.subset (List.mem_toFinset.1 hj))).1
  · have hnot : i ∉ alive.toFinset := fun hmem => (h.mem_peers.1 (hsub.subset (List.mem_toFinset.1 hmem))).2 rfl
    rw [Finset.card_insert_of_notMem hnot, List.toFinset_card_of_nodup hnodup,
      List.toFinset_card_of_nodup (hsub.nodup (h.nodup_peers hnodup))]
    omega
  · rcases Finset.mem_insert.1 hj with rfl | hj
    · exact Or.inl rfl
    · exact Or.inr (List.mem_toFinset.1 hj)

/-- **Caught up**: a server with a majority of peers has the newest record of every key. -/
theorem Settled.caughtUp (h : Settled ids w latest held) (hfit : DumpsFit ids w) {m : Records}
    (hmajority : Majority ids.toFinset fun j => j = i ∨ j ∈ (w i).alivePeers (links up w))
    (hcatch : catchUp (links up w) ((w i).alivePeers (links up w)) (w i).store = (m, .ok ())) :
    Decodes m latest ∧ Behind latest latest := by
  have hheld : ∀ peer, Decodes ((links up w).server peer).store (held peer) := h.decodes
  obtain ⟨f₁, hm₁, hbehind, hkeep⟩ := catchUp_behind hheld h.behind ((w i).alivePeers (links up w)) (h.decodes i)
    (h.behind i)
  obtain ⟨f₂, hm₂, hnewest⟩ := catchUp_newest hheld (h.decodes i) hcatch
  rw [hcatch] at hm₁
  obtain rfl : f₁ = f₂ := funext fun key => Except.ok.inj ((hm₁.read key).symm.trans (hm₂.read key))
  have hlatest : f₁ = latest := by
    funext key
    cases hl : latest key with
    | none => exact hbehind.eq_none hl
    | some l =>
      obtain ⟨j, -, hj, hjl⟩ := (hmajority.meet (h.majority key l hl))
      rcases hj with rfl | hj
      · exact hkeep key l hl hjl
      · refine hbehind.eq_of_reaches hl ?_
        rw [hnewest, reaches_newest]
        refine Or.inr ⟨l, List.mem_filterMap.2 ⟨j, List.mem_filter.2 ⟨hj, h.dump_isSome hfit hj⟩, ?_⟩, le_rfl⟩
        exact Option.filter_eq_some_iff.2 ⟨hjl, (h.behind j key l hjl).1⟩
  rw [hlatest] at hm₁ hbehind
  exact ⟨hm₁, hbehind⟩

end Settled

/-! ## Staging and committing -/

/-- A peer takes the record when it is staged: no field of the line is empty, it fits into a frame,
    and the record into the log. -/
structure Takes (key : String) (record : ReplicaValue) : Prop where
  texts : "" ∉ (Request.repl key record.version record.tombstone record.value).texts
  line : (utf8 (Request.repl key record.version record.tombstone record.value).line).length ≤ MAX_FRAME
  fits : Wal.Fits (Command.set key (encodeRecord record)).encode

section Writes
variable {key : String} {record : ReplicaValue} {m : Records} {f : String → Option ReplicaValue} {s : Server}
  {w : Servers} {up : U64 → Bool} {peer : U64}

/-- The mark of a committed record takes no more room. -/
theorem fits_committed (key : String) (record : ReplicaValue) :
    Wal.Fits (Command.set key (encodeRecord { record with committed := true })).encode ↔
    Wal.Fits (Command.set key (encodeRecord { record with committed := false })).encode := by
  have hlen : (utf8 (encodeRecord { record with committed := true })).length =
      (utf8 (encodeRecord { record with committed := false })).length := by
    have htrue : (utf8 (printBool true)).length = (utf8 (printBool false)).length := by decide
    simp only [encodeRecord, utf8_append, List.length_append, htrue]
  simp only [Wal.Fits, Command.encode, List.length_cons, List.length_append, Command.length_pushBytes, hlen]

theorem setRecord_eq (m : Records) (key encoded : String) : setRecord m key encoded =
    if Wal.Fits (Command.set key encoded).encode then .ok (insertEntry key encoded m)
    else Res.fail .invalidInput "wal: record exceeds 4 GiB" := by
  rw [setRecord]
  split_ifs with hfit
  · rw [Wal.append_of_fits hfit]
    rfl
  · rw [Wal.append, if_neg hfit]
    rfl

/-- A newer record is set. -/
theorem merge_newer (hm : Decodes m f) (hnew : ∀ r, f key = some r → r.version < record.version) :
    merge m key record = setRecord m key (encodeRecord record) := by
  rw [merge, hm.read key, Res.ok_bind]
  cases hf : f key with
  | none => rfl
  | some r =>
    have hrep : replaces r record = true := replaces_iff.2 (Prod.Lex.left _ _ (hnew r hf))
    simp only [Option.map_some, Option.getD_some, hrep, if_true]

/-- An answer that is an error is not `OK`. -/
theorem answerLine_error_ne (e : Fault) : answerLine (.error e) ≠ some "OK" := by
  cases e with
  | panic p => exact fun h => nomatch h
  | io e =>
    intro h
    have hlist := congrArg String.toList (Option.some.inj h)
    rw [String.toList_append] at hlist
    cases hlist

/-- A request that is answered with `OK`. -/
theorem ask_ok {request : Request} (hup : up peer = true) (hline : (utf8 request.line).length ≤ MAX_FRAME)
    (hhandle : (w peer).handle (utf8 request.line) = (s, .done (.ok "OK"))) :
    (links up w).ask peer request = some "OK" ∧ (links up w).visited peer request = s := by
  have hpass : (links up w).passes peer request = true := by
    simp only [links, hup, hline, decide_true, Bool.and_self]
  have hserver : (links up w).server peer = w peer := rfl
  have hok : (utf8 "OK").length ≤ MAX_FRAME := by decide
  rw [Network.ask, Network.visited, if_pos hpass, if_pos hpass, hserver, hhandle]
  simp only [answerLine, Option.filter_some, hok, decide_true, if_true, and_self]

/-- A request that is answered with an error. -/
theorem ask_error {request : Request} {e : Fault}
    (hhandle : (w peer).handle (utf8 request.line) = (w peer, .done (.error e))) :
    (links up w).ask peer request ≠ some "OK" ∧ (links up w).visited peer request = w peer := by
  have hserver : (links up w).server peer = w peer := rfl
  rw [Network.ask, Network.visited, hserver, hhandle]
  split_ifs
  · exact ⟨fun h => answerLine_error_ne e (Option.filter_eq_some_iff.1 h).1, rfl⟩
  · refine ⟨?_, rfl⟩
    intro h
    cases h

/-- **A record is staged** on a peer that takes it. -/
theorem repl_taken (htakes : Takes key record) (hstaged : record.committed = false) (hup : up peer = true)
    (hm : Decodes (w peer).store f) (hnew : ∀ r, f key = some r → r.version < record.version) :
    (links up w).ask peer (.repl key record.version record.tombstone record.value) = some "OK" ∧
      ∃ s, (links up w).visited peer (.repl key record.version record.tombstone record.value) = s ∧
        SameServer (w peer) s ∧ Decodes s.store (Function.update f key (some record)) := by
  obtain ⟨version, tombstone, committed, value⟩ := record
  obtain rfl : committed = false := hstaged
  have hset := setRecord_eq (w peer).store key (encodeRecord ⟨version, tombstone, false, value⟩)
  rw [if_pos htakes.fits] at hset
  have hhandle : (w peer).handle (utf8 (Request.repl key version tombstone value).line) =
      ({ w peer with store := insertEntry key (encodeRecord ⟨version, tombstone, false, value⟩) (w peer).store },
        .done (.ok "OK")) := by
    rw [handle, Request.parse_line htakes.texts]
    simp only [perform, merge_newer hm hnew, hset]
    rfl
  obtain ⟨hask, hvisited⟩ := ask_ok hup htakes.line hhandle
  exact ⟨hask, _, hvisited, ⟨rfl, rfl⟩, hm.set hset⟩

/-- A peer that does not take it stays as it is. -/
theorem repl_refused (htakes : ¬ Takes key record) (hstaged : record.committed = false) (hm : Decodes (w peer).store f)
    (hnew : ∀ r, f key = some r → r.version < record.version) :
    (links up w).ask peer (.repl key record.version record.tombstone record.value) ≠ some "OK" ∧
      (links up w).visited peer (.repl key record.version record.tombstone record.value) = w peer := by
  obtain ⟨version, tombstone, committed, value⟩ := record
  obtain rfl : committed = false := hstaged
  by_cases hline : (utf8 (Request.repl key version tombstone value).line).length ≤ MAX_FRAME
  · by_cases htexts : "" ∈ (Request.repl key version tombstone value).texts
    · refine ask_error (e := .io ⟨.invalidData, "cluster: unknown request"⟩) ?_
      rw [handle, Request.parse_line_of_empty htexts]
      rfl
    · have hfit : ¬ Wal.Fits (Command.set key (encodeRecord ⟨version, tombstone, false, value⟩)).encode :=
        fun hfit => htakes ⟨htexts, hline, hfit⟩
      have hset := setRecord_eq (w peer).store key (encodeRecord ⟨version, tombstone, false, value⟩)
      rw [if_neg hfit] at hset
      refine ask_error (e := .io ⟨.invalidInput, "wal: record exceeds 4 GiB"⟩) ?_
      rw [handle, Request.parse_line htexts]
      simp only [perform, merge_newer hm hnew, hset]
      rfl
  · have hpass : (links up w).passes peer (.repl key version tombstone value) = false := by
      simp only [links, hline, decide_false, Bool.and_false]
    rw [Network.ask, Network.visited, hpass, if_neg Bool.false_ne_true]
    refine ⟨?_, rfl⟩
    intro h
    cases h

/-- The line of a commit is the shorter one. -/
theorem commit_line_le (key : String) (record : ReplicaValue) :
    (utf8 (Request.commit key record.version).line).length ≤
      (utf8 (Request.repl key record.version record.tombstone record.value).line).length := by
  have h1 : (utf8 "COMMIT ").length = 7 := by decide
  have h2 : (utf8 "REPL ").length = 5 := by decide
  have h3 : (utf8 " ").length = 1 := by decide
  simp only [Request.line, utf8_append, List.length_append, h1, h2, h3]
  omega

/-- **A staged record is committed.** -/
theorem commit_taken (htakes : Takes key record) (hstaged : record.committed = false) (hup : up peer = true)
    (hm : Decodes (w peer).store f) (hf : f key = some record) :
    (links up w).ask peer (.commit key record.version) = some "OK" ∧
      ∃ s, (links up w).visited peer (.commit key record.version) = s ∧ SameServer (w peer) s ∧
        Decodes s.store (Function.update f key (some { record with committed := true })) := by
  obtain ⟨version, tombstone, committed, value⟩ := record
  obtain rfl : committed = false := hstaged
  have htexts : "" ∉ (Request.commit key version).texts := fun h => htakes.texts (by
    rw [Request.texts, List.mem_singleton] at h
    rw [Request.texts, ← h]
    exact List.mem_cons_self)
  have hset := setRecord_eq (w peer).store key (encodeRecord ⟨version, tombstone, true, value⟩)
  rw [if_pos ((fits_committed key ⟨version, tombstone, false, value⟩).2 htakes.fits)] at hset
  have hhandle : (w peer).handle (utf8 (Request.commit key version).line) =
      ({ w peer with store := insertEntry key (encodeRecord ⟨version, tombstone, true, value⟩) (w peer).store },
        .done (.ok "OK")) := by
    have hcommit : commitRecord (w peer).store key version =
        .ok (insertEntry key (encodeRecord ⟨version, tombstone, true, value⟩) (w peer).store) := by
      rw [commitRecord, hm.read key, hf, Res.ok_bind]
      change (if version = version then _ else _) = _
      rw [if_pos rfl]
      exact hset
    rw [handle, Request.parse_line htexts]
    simp only [perform, hcommit]
    rfl
  have hline : (utf8 (Request.commit key version).line).length ≤ MAX_FRAME :=
    (commit_line_le key ⟨version, tombstone, false, value⟩).trans htakes.line
  obtain ⟨hask, hvisited⟩ := ask_ok hup hline hhandle
  exact ⟨hask, _, hvisited, ⟨rfl, rfl⟩, hm.set hset⟩

end Writes

/-! ## Steps -/

section Steps
variable {ids : List U64} {w w' : Servers} {latest : String → Option ReplicaValue}
  {held : U64 → String → Option ReplicaValue} {i : U64} {up : U64 → Bool} {key value : String} {tombstone : Bool}
  {response : Res String}

theorem SameServer.refl (s : Server) : SameServer s s := ⟨rfl, rfl⟩

theorem SameServer.trans {s s' s'' : Server} (h : SameServer s s') (h' : SameServer s' s'') : SameServer s s'' :=
  ⟨h'.id.trans h.id, h'.peers.trans h.peers⟩

/-- **A majority has taken a newer record.** -/
theorem Settled.adopt (h : Settled ids w latest held) {l : ReplicaValue} (hl : l.committed = true)
    (hnew : ∀ r, latest key = some r → r.version < l.version) {A : U64 → Prop} [DecidablePred A]
    (hA : Majority ids.toFinset A) (hsame : ∀ j, SameServer (w j) (w' j))
    (htaken : ∀ j, A j → Decodes (w' j).store (Function.update (held j) key (some l)))
    (hother : ∀ j, ¬ A j → (w' j).store = (w j).store) :
    Settled ids w' (Function.update latest key (some l))
      fun j => if A j then Function.update (held j) key (some l) else held j where
  id j := (hsame j).id.trans (h.id j)
  peers j := (hsame j).peers.trans (h.peers j)
  decodes j := by
    split_ifs with hj
    · exact htaken j hj
    · rw [hother j hj]
      exact h.decodes j
  behind j k r hr := by
    by_cases hk : k = key
    · subst hk
      rw [Function.update_self]
      split_ifs at hr with hj
      · rw [Function.update_self] at hr
        obtain rfl := Option.some.inj hr
        exact ⟨hl, l, rfl, Or.inl rfl⟩
      · obtain ⟨hcommitted, l', hl', hcases⟩ := h.behind j k r hr
        refine ⟨hcommitted, l, rfl, Or.inr ?_⟩
        rcases hcases with rfl | hlt
        · exact hnew r hl'
        · exact hlt.trans (hnew l' hl')
    · rw [Function.update_of_ne hk]
      refine h.behind j k r ?_
      split_ifs at hr with hj
      · rwa [Function.update_of_ne hk] at hr
      · exact hr
  majority k l' hl' := by
    by_cases hk : k = key
    · subst hk
      rw [Function.update_self] at hl'
      obtain rfl := Option.some.inj hl'
      exact hA.mono fun j _ hj => by rw [if_pos hj, Function.update_self]
    · rw [Function.update_of_ne hk] at hl'
      refine (h.majority k l' hl').mono fun j _ hj => ?_
      split_ifs
      · rwa [Function.update_of_ne hk]
      · exact hj

/-- The record of a write is newer than that of the server. -/
theorem nextRecord_ok {s : Server} {f : String → Option ReplicaValue} {record : ReplicaValue} (hs : Decodes s.store f)
    (h : s.nextRecord key value tombstone = .ok record) : record.tombstone = tombstone ∧ record.committed = false ∧
      record.value = value ∧ ∀ r, f key = some r → r.version < record.version := by
  rw [nextRecord, hs.read key, Res.ok_bind] at h
  obtain ⟨version, hversion, h⟩ := Res.bind_eq_ok.1 h
  have hadd := U64.checkedAdd_eq_some.1 (Res.ofOption_eq_ok.1 hversion)
  cases h
  refine ⟨rfl, rfl, rfl, fun r hr => ?_⟩
  rw [hr, Option.map_some, Option.getD_some] at hadd
  rw [Fin.lt_def, hadd]
  exact Nat.lt_succ_self _

/-- What a request for a write does: it sets a newer record of the key, or nothing. -/
inductive Wrote (key value : String) (tombstone : Bool) (latest : String → Option ReplicaValue) :
    Res String → (String → Option ReplicaValue) → Prop
  | set {l : ReplicaValue} {version : U64} : l.tombstone = tombstone → l.value = value → l.version = version →
      Wrote key value tombstone latest (.ok ("OK " ++ version.print)) (Function.update latest key (some l))
  | refused {line : String} : stripPrefix "OK " line = none → Wrote key value tombstone latest (.ok line) latest
  | failed (e : Fault) : Wrote key value tombstone latest (.error e) latest

/-- A request that all peers answer with `OK`. -/
theorem askAll_done (up : U64 → Bool) (request : Request) {peers : List U64} (F : U64 → String → Option ReplicaValue)
    (hnodup : peers.Nodup) (hdone : ∀ peer ∈ peers, (links up w).ask peer request = some "OK" ∧
      ∃ s, (links up w).visited peer request = s ∧ SameServer (w peer) s ∧ Decodes s.store (F peer)) :
    ∃ w', askAll up request peers w = (peers, w') ∧ (∀ j, SameServer (w j) (w' j)) ∧
      (∀ j ∈ peers, Decodes (w' j).store (F j)) ∧ ∀ j, j ∉ peers → w' j = w j := by
  refine ⟨fun j => if j ∈ peers then (links up w).visited j request else w j, ?_, fun j => ?_, fun j hj => ?_,
    fun j hj => if_neg hj⟩
  · rw [askAll_eq up request w hnodup, List.filter_eq_self.2 fun peer hp => decide_eq_true (hdone peer hp).1]
  · dsimp only
    split_ifs with hj
    · obtain ⟨-, s, hs, hsame, -⟩ := hdone j hj
      rwa [hs]
    · exact .refl _
  · obtain ⟨-, s, hs, -, hdec⟩ := hdone j hj
    dsimp only
    rwa [if_pos hj, hs]

/-- **`REPL` and `COMMIT`**: a record that all peers alive take. -/
theorem Settled.commitAll (h : Settled ids w latest held) (hnodup : ids.Nodup) {record : ReplicaValue}
    (hstaged : record.committed = false) (hnew : ∀ r, latest key = some r → r.version < record.version)
    (hi : held i = latest) {alive : List U64} (hsub : alive.Sublist (w i).peers)
    (hup : ∀ peer ∈ alive, up peer = true) (htakes : ∀ peer ∈ alive, Takes key record)
    (hmajority : Majority ids.toFinset fun j => j = i ∨ j ∈ alive) {m : Records}
    (hset : setRecord (w i).store key (encodeRecord { record with committed := true }) = .ok m) :
    ∃ w₂ w₄, askAll up (.repl key record.version record.tombstone record.value) alive w = (alive, w₂) ∧
      askAll up (.commit key record.version) alive (Function.update w₂ i { w i with store := m }) = (alive, w₄) ∧
      ∃ held', Settled ids w₄ (Function.update latest key (some { record with committed := true })) held' := by
  have hmem : ∀ peer ∈ alive, peer ≠ i := fun peer hp => (h.mem_peers.1 (hsub.subset hp)).2
  have hi' : i ∉ alive := fun hp => hmem i hp rfl
  have hnewer : ∀ j r, held j key = some r → r.version < record.version := by
    intro j r hr
    obtain ⟨-, l, hl, rfl | hlt⟩ := h.behind j key r hr
    · exact hnew r hl
    · exact hlt.trans (hnew l hl)
  have hpeers := hsub.nodup (h.nodup_peers hnodup)
  -- the record is staged on all of them
  obtain ⟨w₂, hw₂, hsame₂, hdec₂, hother₂⟩ := askAll_done up _ _ hpeers fun peer hp =>
    repl_taken (htakes peer hp) hstaged (hup peer hp) (h.decodes peer) (hnewer peer)
  generalize hw₃ : Function.update w₂ i { w i with store := m } = w₃
  have hw₃peer : ∀ j ∈ alive, w₃ j = w₂ j := fun j hj => by rw [← hw₃, Function.update_of_ne (hmem j hj)]
  have hw₃i : w₃ i = { w i with store := m } := by rw [← hw₃, Function.update_self]
  have hsame₃ : ∀ j, SameServer (w j) (w₃ j) := by
    intro j
    by_cases hj : j = i
    · rw [hj, hw₃i]
      exact ⟨rfl, rfl⟩
    · rw [← hw₃, Function.update_of_ne hj]
      exact hsame₂ j
  -- and then committed
  obtain ⟨w₄, hw₄, hsame₄, hdec₄, hother₄⟩ := askAll_done (w := w₃) up
    (.commit key record.version) (fun j => Function.update (held j) key (some { record with committed := true }))
    hpeers fun peer hp => by
      have hdec := hdec₂ peer hp
      rw [← hw₃peer peer hp] at hdec
      have hcommit := commit_taken (htakes peer hp) hstaged (hup peer hp) hdec (Function.update_self ..)
      rwa [Function.update_idem] at hcommit
  have hnewest : ∀ r, latest key = some r → r.version < { record with committed := true }.version := hnew
  refine ⟨w₂, w₄, hw₂, hw₃ ▸ hw₄, _, h.adopt (l := { record with committed := true }) rfl hnewest hmajority
    (fun j => (hsame₃ j).trans (hsame₄ j)) (fun j hj => ?_) fun j hj => ?_⟩
  · rcases hj with rfl | hj
    · rw [hother₄ j hi', hw₃i]
      exact (h.decodes j).set hset
    · exact hdec₄ j hj
  · rw [not_or] at hj
    rw [hother₄ j hj.2, ← hw₃, Function.update_of_ne hj.1, hother₂ j hj.2]

/-- `REPL` of a record that no peer takes. -/
theorem Settled.refuseAll (h : Settled ids w latest held) (hnodup : ids.Nodup) {record : ReplicaValue}
    (hstaged : record.committed = false) (hnew : ∀ r, latest key = some r → r.version < record.version)
    {alive : List U64} (hsub : alive.Sublist (w i).peers) (htakes : ¬ Takes key record) :
    askAll up (.repl key record.version record.tombstone record.value) alive w = ([], w) := by
  have hnewer : ∀ j r, held j key = some r → r.version < record.version := by
    intro j r hr
    obtain ⟨-, l, hl, rfl | hlt⟩ := h.behind j key r hr
    · exact hnew r hl
    · exact hlt.trans (hnew l hl)
  have hrefused : ∀ peer,
      (links up w).ask peer (.repl key record.version record.tombstone record.value) ≠ some "OK" ∧
        (links up w).visited peer (.repl key record.version record.tombstone record.value) = w peer :=
    fun peer => repl_refused htakes hstaged (h.decodes peer) (hnewer peer)
  rw [askAll_eq _ _ _ (hsub.nodup (h.nodup_peers hnodup))]
  refine Prod.ext (List.filter_eq_nil_iff.2 fun peer _ => ?_) (funext fun j => ?_)
  · rw [decide_eq_true_eq]
    exact (hrefused peer).1
  · dsimp only
    rw [(hrefused j).2, ite_self]

/-- A line that begins otherwise. -/
theorem stripPrefix_append_none {start other : String} (hlen : start.length ≤ other.length)
    (h : other.toList.take start.length ≠ start.toList) (rest : String) : stripPrefix start (other ++ rest) = none := by
  rw [stripPrefix, String.toList_append, List.take_append_of_le_length (by rwa [String.length_toList]), if_neg h]

/-- **The end of a write**: a server that has the newest records, with its peers alive a majority. -/
theorem Settled.replicate (h : Settled ids w latest held) (hnodup : ids.Nodup) {record : ReplicaValue}
    (hstaged : record.committed = false) (hnew : ∀ r, latest key = some r → r.version < record.version)
    (hi : held i = latest) {alive : List U64} (hsub : alive.Sublist (w i).peers)
    (hup : ∀ peer ∈ alive, up peer = true) (hmajority : Majority ids.toFinset fun j => j = i ∨ j ∈ alive)
    (hmore : (w i).peers.length + 1 < (alive.length + 1) * 2)
    (hrun : Server.replicate up w i key record alive = (w', response)) :
    ∃ latest' held', Settled ids w' latest' held' ∧ Wrote key record.value record.tombstone latest response latest' := by
  have hmerge : merge (w i).store key { record with committed := true } =
      setRecord (w i).store key (encodeRecord { record with committed := true }) :=
    merge_newer (hi ▸ h.decodes i) hnew
  simp only [Server.replicate, hmerge] at hrun
  by_cases htakes : ∀ peer ∈ alive, Takes key record
  · rcases hset : setRecord (w i).store key (encodeRecord { record with committed := true }) with e | m
    · -- a server whose log refuses the record has no peers that take it
      have hfits : ¬ Wal.Fits (Command.set key (encodeRecord { record with committed := true })).encode := by
        intro hfits
        rw [setRecord_eq, if_pos hfits] at hset
        cases hset
      have halive : alive = [] := by
        refine List.eq_nil_iff_forall_not_mem.2 fun peer hp => hfits ?_
        obtain ⟨version, tombstone, committed, value⟩ := record
        obtain rfl : committed = false := hstaged
        exact (fits_committed key ⟨version, tombstone, false, value⟩).2 (htakes peer hp).fits
      subst halive
      simp only [askAll, if_neg (Nat.not_le.2 hmore), hset] at hrun
      cases hrun
      exact ⟨latest, held, h, .failed e⟩
    · obtain ⟨w₂, w₄, hw₂, hw₄, held', hsettled⟩ := h.commitAll hnodup hstaged hnew hi hsub hup htakes hmajority hset
      have hcount : (1 + alive.length) * 2 > (w i).peers.length + 1 := by omega
      simp only [hw₂, if_neg (Nat.not_le.2 hmore), hset, hw₄, if_pos hcount] at hrun
      cases hrun
      exact ⟨_, held', hsettled, .set (l := { record with committed := true }) rfl rfl rfl⟩
  · obtain ⟨peer, hp, hnot⟩ : ∃ peer ∈ alive, ¬ Takes key record := by
      by_contra hall
      exact htakes fun peer hp => by_contra fun hnot => hall ⟨peer, hp, hnot⟩
    have hpeers : 0 < (w i).peers.length := List.length_pos_of_mem (hsub.subset hp)
    have hcount : (0 + 1) * 2 ≤ (w i).peers.length + 1 := by omega
    simp only [h.refuseAll hnodup hstaged hnew hsub hnot, List.length_nil, if_pos hcount] at hrun
    cases hrun
    exact ⟨latest, held, h, .refused rfl⟩

/-- **A write**: the servers stay settled, and it has set a newer record, or done nothing. -/
theorem Settled.write (h : Settled ids w latest held) (hnodup : ids.Nodup) (hodd : Odd ids.length) (hi : i ∈ ids)
    (hfit : DumpsFit ids w) (hwrite : write up w i key value tombstone = (w', response)) :
    ∃ latest' held', Settled ids w' latest' held' ∧ Wrote key value tombstone latest response latest' := by
  have hsub := alivePeers_sublist (w i) (links up w)
  unfold Server.write at hwrite
  by_cases hleader : (w i).leader ((w i).alivePeers (links up w)) ≠ (w i).id
  · simp only [if_pos hleader] at hwrite
    cases hwrite
    exact ⟨latest, held, h, .refused (stripPrefix_append_none (by decide) (by decide) _)⟩
  simp only [if_neg hleader] at hwrite
  by_cases hquorum : ((w i).alivePeers (links up w)).length + 1 ≤ (w i).peers.length / 2
  · simp only [if_pos hquorum] at hwrite
    cases hwrite
    exact ⟨latest, held, h, .refused rfl⟩
  simp only [if_neg hquorum] at hwrite
  obtain ⟨hmajority, hmore⟩ := h.majority_of_alive hnodup hi hodd hsub hquorum
  rcases hcatch : catchUp (links up w) ((w i).alivePeers (links up w)) (w i).store with ⟨m, e | u⟩
  · -- a part of the dumps has been merged
    have hheld : ∀ peer, Decodes ((links up w).server peer).store (held peer) := h.decodes
    obtain ⟨f, hm, hbehind, hkeep⟩ :=
      catchUp_behind hheld h.behind ((w i).alivePeers (links up w)) (h.decodes i) (h.behind i)
    rw [hcatch] at hm hwrite
    cases hwrite
    exact ⟨latest, _, h.update ⟨rfl, rfl⟩ hm hbehind hkeep, .failed e⟩
  obtain ⟨hm, hbehind⟩ := h.caughtUp hfit hmajority hcatch
  have h₁ := h.update (s := { w i with store := m }) ⟨rfl, rfl⟩ hm hbehind fun _ _ hl _ => hl
  simp only [hcatch] at hwrite
  generalize hw₁ : Function.update w i { w i with store := m } = w₁ at h₁ hwrite
  generalize hheld₁ : Function.update held i latest = held₁ at h₁
  have hwi : w₁ i = { w i with store := m } := by rw [← hw₁, Function.update_self]
  rcases hnext : nextRecord { w i with store := m } key value tombstone with e | record
  · rw [hnext] at hwrite
    cases hwrite
    exact ⟨latest, held₁, h₁, .failed e⟩
  rw [hnext] at hwrite
  obtain ⟨rfl, hstaged, rfl, hnew⟩ := nextRecord_ok hm hnext
  have hself : held₁ i = latest := by rw [← hheld₁, Function.update_self]
  have hsub₁ : ((w i).alivePeers (links up w)).Sublist (w₁ i).peers := by rwa [hwi]
  have hmore₁ : (w₁ i).peers.length + 1 < (((w i).alivePeers (links up w)).length + 1) * 2 := by rwa [hwi]
  exact h₁.replicate hnodup hstaged hnew hself hsub₁ (fun peer hp => up_of_alive hp) hmajority hmore₁ hwrite

/-- What a record shows to reads. -/
def shown : Option ReplicaValue → Option String
  | some record => if record.tombstone then none else some record.value
  | none => none

/-- What the newest records show. -/
def contents (latest : String → Option ReplicaValue) (key : String) : Option String := shown (latest key)

theorem contents_update (latest : String → Option ReplicaValue) (key : String) (l : ReplicaValue) :
    contents (Function.update latest key (some l)) = Function.update (contents latest) key (shown (some l)) := by
  funext k
  by_cases hk : k = key
  · rw [hk, contents, Function.update_self, Function.update_self]
  · rw [contents, Function.update_of_ne hk, Function.update_of_ne hk, contents]

/-- A committed record is read as what it shows. -/
theorem readAnswer_readLine {current : Option ReplicaValue} (h : ∀ r, current = some r → r.committed = true) :
    readAnswer (readLine current) = .ok (shown current) := by
  cases current with
  | none => rfl
  | some record =>
    rw [readLine, shown, h record rfl, Bool.true_and]
    cases record.tombstone with
    | true => rfl
    | false => exact readAnswer_valueLine record.value

/-- A line that is no answer to a read. -/
theorem readAnswer_append_none {other : String} (hlen : "VALUE ".length ≤ other.length)
    (h : other.toList.take "VALUE ".length ≠ "VALUE ".toList) (rest : String) (value : Option String) :
    readAnswer (other ++ rest) ≠ .ok value := by
  have hne : other ++ rest ≠ "NIL" := by
    intro heq
    have hlist := congrArg (fun s => s.toList.length) heq
    simp only [String.toList_append, List.length_append, String.length_toList] at hlist
    have h6 : "VALUE ".length = 6 := by decide
    have h3 : "NIL".length = 3 := by decide
    omega
  rw [readAnswer, if_neg hne, stripPrefix_append_none hlen h]
  intro hfail
  cases hfail

/-- **A read**: the servers stay settled, and the answer is what the newest record shows. -/
theorem Settled.read (h : Settled ids w latest held) (hnodup : ids.Nodup) (hodd : Odd ids.length) (hi : i ∈ ids)
    (hfit : DumpsFit ids w) (hread : Server.read up w i key = (w', response)) :
    ∃ held', Settled ids w' latest held' ∧
      ∀ line value, response = .ok line → readAnswer line = .ok value → value = contents latest key := by
  have hsub := alivePeers_sublist (w i) (links up w)
  unfold Server.read clientRead at hread
  by_cases hleader : (w i).leader ((w i).alivePeers (links up w)) ≠ (w i).id
  · simp only [if_pos hleader, Function.update_eq_self] at hread
    cases hread
    refine ⟨held, h, fun line value hline hvalue => ?_⟩
    cases hline
    exact absurd hvalue (readAnswer_append_none (by decide) (by decide) _ _)
  simp only [if_neg hleader] at hread
  by_cases hquorum : ((w i).alivePeers (links up w)).length + 1 ≤ (w i).peers.length / 2
  · simp only [if_pos hquorum, Function.update_eq_self] at hread
    cases hread
    refine ⟨held, h, fun line value hline hvalue => ?_⟩
    cases hline
    have hretry : readAnswer ("RETRY no-quorum" ++ "") ≠ .ok value := readAnswer_append_none (by decide) (by decide) "" value
    exact absurd hvalue hretry
  simp only [if_neg hquorum] at hread
  obtain ⟨hmajority, -⟩ := h.majority_of_alive hnodup hi hodd hsub hquorum
  rcases hcatch : catchUp (links up w) ((w i).alivePeers (links up w)) (w i).store with ⟨m, e | u⟩
  · have hheld : ∀ peer, Decodes ((links up w).server peer).store (held peer) := h.decodes
    obtain ⟨f, hm, hbehind, hkeep⟩ :=
      catchUp_behind hheld h.behind ((w i).alivePeers (links up w)) (h.decodes i) (h.behind i)
    rw [hcatch] at hm hread
    cases hread
    exact ⟨_, h.update ⟨rfl, rfl⟩ hm hbehind hkeep, fun line value hline => nomatch hline⟩
  · obtain ⟨hm, hbehind⟩ := h.caughtUp hfit hmajority hcatch
    rw [hcatch] at hread
    simp only [hm.read key] at hread
    cases hread
    refine ⟨_, h.update ⟨rfl, rfl⟩ hm hbehind fun _ _ hl _ => hl, fun line value hline hvalue => ?_⟩
    cases hline
    rw [readAnswer_readLine fun r hr => (hbehind key r hr).1] at hvalue
    exact (Except.ok.inj hvalue).symm

end Steps

/-! ## Runs -/

/-- Clients send no `REPL` and no `COMMIT`. -/
def FromClient : RoundEvent → Prop
  | .request _ _ frame => ∀ request, Request.parse frame = .ok request →
      (∀ key version tombstone value, request ≠ .repl key version tombstone value) ∧
      ∀ key version, request ≠ .commit key version
  | .restart _ => True

/-- What the client of a request learns of the map: a write that is answered with `OK` has been
    executed, and a read that is answered has the value. -/
def effect : RoundEvent × Res String → List (MapOp String (Option String))
  | (.request _ _ frame, .ok line) =>
    match Request.parse frame with
    | .ok (.put key value) => if (stripPrefix "OK " line).isSome then [.write key (some value)] else []
    | .ok (.delete key) => if (stripPrefix "OK " line).isSome then [.write key none] else []
    | .ok (.get key) =>
      match readAnswer line with
      | .ok value => [.read key value]
      | .error _ => []
    | _ => []
  | _ => []

/-- The operations of a run, in their order. -/
def effects : List (Servers × RoundEvent × Res String) → List (MapOp String (Option String))
  | [] => []
  | (_, l) :: steps => effects steps ++ effect l

section Runs
variable {ids : List U64} {w w' : Servers} {latest latest' : String → Option ReplicaValue}
  {held : U64 → String → Option ReplicaValue} {i : U64} {up : U64 → Bool} {frame : Bytes} {key value : String}
  {response : Res String} {event : RoundEvent} {tombstone : Bool}

theorem serial_write (h : Wrote key value tombstone latest response latest') {ops : List (MapOp String (Option String))}
    (hok : ∀ version : U64, response = .ok ("OK " ++ version.print) →
      ops = [.write key (if tombstone then none else some value)])
    (hrefused : ∀ line, response = .ok line → stripPrefix "OK " line = none → ops = [])
    (hfailed : ∀ e, response = .error e → ops = []) : Serial (contents latest) ops (contents latest') := by
  cases h with
  | @set l version htombstone hvalue hversion =>
    rw [hok version rfl, contents_update, shown, htombstone, hvalue]
    exact (Serial.nil (contents latest)).write key _
  | @refused line hline =>
    rw [hrefused line rfl hline]
    exact .nil _
  | failed e =>
    rw [hfailed e rfl]
    exact .nil _

/-- A request that the server answers itself leaves its records alone, and is none on the map. -/
theorem Settled.serveDone (h : Settled ids w latest held) (hserve : Server.serve up w i frame = (w', response))
    {s : Server} {r : Res String} (hhandle : (w i).handle frame = (s, .done r)) (hsame : SameServer (w i) s)
    (hstore : s.store = (w i).store) (heffect : ∀ line, r = .ok line → effect (.request i up frame, .ok line) = []) :
    ∃ latest' held', Settled ids w' latest' held' ∧
      Serial (contents latest) (effect (.request i up frame, response)) (contents latest') := by
  rw [Server.serve, hhandle] at hserve
  cases hserve
  refine ⟨latest, held, h.update_same hsame hstore, ?_⟩
  have hnone : effect (.request i up frame, response) = [] := by
    cases response with
    | ok line => exact heffect line rfl
    | error e => rfl
  rw [hnone]
  exact .nil _

/-- A write is one on the map if it is answered with `OK`. -/
theorem Settled.serveWrite (h : Settled ids w latest held) (hnodup : ids.Nodup) (hodd : Odd ids.length) (hi : i ∈ ids)
    (hfit : DumpsFit ids w) (hserve : Server.serve up w i frame = (w', response))
    (hhandle : (w i).handle frame = (w i, .run (.write key value tombstone)))
    (heffect : ∀ line, effect (.request i up frame, .ok line) =
      if (stripPrefix "OK " line).isSome then [.write key (if tombstone then none else some value)] else []) :
    ∃ latest' held', Settled ids w' latest' held' ∧
      Serial (contents latest) (effect (.request i up frame, response)) (contents latest') := by
  rw [Server.serve, hhandle] at hserve
  simp only [Function.update_eq_self] at hserve
  obtain ⟨latest', held', hsettled, hwrote⟩ := h.write hnodup hodd hi hfit hserve
  refine ⟨latest', held', hsettled, serial_write hwrote ?_ ?_ ?_⟩
  · rintro version rfl
    rw [heffect, stripPrefix_append]
    rfl
  · rintro line rfl hline
    rw [heffect, hline]
    rfl
  · rintro e rfl
    rfl

/-- A read is one on the map if it is answered with a value, or with none. -/
theorem Settled.serveRead (h : Settled ids w latest held) (hnodup : ids.Nodup) (hodd : Odd ids.length) (hi : i ∈ ids)
    (hfit : DumpsFit ids w) (hserve : Server.serve up w i frame = (w', response))
    (hparse : Request.parse frame = .ok (.get key)) :
    ∃ held', Settled ids w' latest held' ∧
      Serial (contents latest) (effect (.request i up frame, response)) (contents latest) := by
  have hhandle : (w i).handle frame = (w i).perform (.get key) := by rw [handle, hparse]
  rw [Server.serve, hhandle] at hserve
  simp only [perform, Function.update_eq_self] at hserve
  obtain ⟨held', hsettled, hvalue⟩ := h.read hnodup hodd hi hfit hserve
  refine ⟨held', hsettled, ?_⟩
  cases response with
  | error e => exact .nil _
  | ok line =>
    rw [effect, hparse]
    cases hanswer : readAnswer line with
    | error e => exact .nil _
    | ok value =>
      rw [hvalue line value rfl hanswer]
      exact (Serial.nil (contents latest)).read key

/-- **A request**: the servers stay settled, and its effect is one on the map. -/
theorem Settled.serve (h : Settled ids w latest held) (hnodup : ids.Nodup) (hodd : Odd ids.length) (hi : i ∈ ids)
    (hfit : DumpsFit ids w) (hclient : FromClient (.request i up frame))
    (hserve : Server.serve up w i frame = (w', response)) :
    ∃ latest' held', Settled ids w' latest' held' ∧
      Serial (contents latest) (effect (.request i up frame, response)) (contents latest') := by
  cases hparse : Request.parse frame with
  | error e =>
    have hhandle : (w i).handle frame = (w i, .done (.error e)) := by rw [handle, hparse]
    exact h.serveDone hserve hhandle (.refl _) rfl fun line hline => by cases hline
  | ok request =>
    have hhandle : (w i).handle frame = (w i).perform request := by rw [handle, hparse]
    cases request with
    | ping => exact h.serveDone hserve hhandle (.refl _) rfl fun line _ => by rw [effect, hparse]
    | dump => exact h.serveDone hserve hhandle (.refl _) rfl fun line _ => by rw [effect, hparse]
    | adminBlock peer => exact h.serveDone hserve hhandle ⟨rfl, rfl⟩ rfl fun line _ => by rw [effect, hparse]
    | adminHeal => exact h.serveDone hserve hhandle ⟨rfl, rfl⟩ rfl fun line _ => by rw [effect, hparse]
    | repl key version tombstone value => exact absurd rfl ((hclient _ hparse).1 key version tombstone value)
    | commit key version => exact absurd rfl ((hclient _ hparse).2 key version)
    | put key value =>
      exact h.serveWrite hnodup hodd hi hfit hserve hhandle fun line => by rw [effect, hparse]; rfl
    | delete key =>
      exact h.serveWrite hnodup hodd hi hfit hserve hhandle fun line => by rw [effect, hparse]; rfl
    | get key =>
      obtain ⟨held', hsettled, hserial⟩ := h.serveRead hnodup hodd hi hfit hserve hparse
      exact ⟨latest, held', hsettled, hserial⟩

/-- A run keeps the servers settled, and its effects are those of operations on the newest records. -/
theorem settled_run {steps : List (Servers × RoundEvent × Res String)} (hnodup : ids.Nodup) (hodd : Odd ids.length)
    (hrun : Trace (Round ids) (freshServers ids) steps w) (hclients : ∀ p ∈ steps, FromClient p.2.1)
    (hfit : ∀ p ∈ steps, DumpsFit ids p.1) :
    ∃ latest held, Settled ids w latest held ∧ Serial (fun _ => none) (effects steps) (contents latest) := by
  induction hrun with
  | refl => exact ⟨_, _, settled_fresh ids, .nil _⟩
  | @step w w' l steps _ hstep ih =>
    obtain ⟨latest, held, hsettled, hserial⟩ := ih (fun p hp => hclients p (List.mem_cons_of_mem _ hp))
      fun p hp => hfit p (List.mem_cons_of_mem _ hp)
    have hclient := hclients _ List.mem_cons_self
    have hdumps := hfit _ List.mem_cons_self
    cases hstep with
    | request hi hserve =>
      obtain ⟨latest', held', hsettled', hmore⟩ := hsettled.serve hnodup hodd hi hdumps hclient hserve
      exact ⟨latest', held', hsettled', hserial.append hmore⟩
    | restart hi => exact ⟨latest, held, hsettled.update_same ⟨rfl, rfl⟩ rfl, hserial.append (.nil _)⟩

/-- **One map**: in a cluster of an odd number of servers, whose requests are served one at a time, whose
    links fail and come back between requests, and whose servers are blocked, healed and started again, the
    requests that are answered are executed one after the other on one map; a write that is not
    answered with `OK` has no effect. -/
theorem rounds_serial {steps : List (Servers × RoundEvent × Res String)} (hnodup : ids.Nodup) (hodd : Odd ids.length)
    (hrun : Trace (Round ids) (freshServers ids) steps w) (hclients : ∀ p ∈ steps, FromClient p.2.1)
    (hfit : ∀ p ∈ steps, DumpsFit ids p.1) : ∃ m, Serial (fun _ => none) (effects steps) m ∧
      ∃ latest held, Settled ids w latest held ∧ m = contents latest := by
  obtain ⟨latest, held, hsettled, hserial⟩ := settled_run hnodup hodd hrun hclients hfit
  exact ⟨contents latest, hserial, latest, held, hsettled, rfl⟩

end Runs

/-- A write at the first of three servers, to which all links are up. -/
def firstPut : Servers × Res String :=
  serve (fun _ => true) (freshServers [1, 2, 3]) 1 (utf8 (Request.put "k" "v").line)

/-- A read at the second server, which the first one cannot be reached from. -/
def secondGet : Servers × Res String := serve (fun peer => peer ≠ 1) firstPut.1 2 (utf8 (Request.get "k").line)

/-- Both of them. -/
def putThenGet : List (Servers × RoundEvent × Res String) :=
  [(firstPut.1, .request 2 (fun peer => peer ≠ 1) (utf8 (Request.get "k").line), secondGet.2),
    (freshServers [1, 2, 3], .request 1 (fun _ => true) (utf8 (Request.put "k" "v").line), firstPut.2)]

theorem putThenGet_trace : Trace (Round [1, 2, 3]) (freshServers [1, 2, 3]) putThenGet secondGet.1 := by
  have hput : Round [1, 2, 3] (freshServers [1, 2, 3])
      (.request 1 (fun _ => true) (utf8 (Request.put "k" "v").line), firstPut.2) firstPut.1 := .request (by decide) rfl
  have hget : Round [1, 2, 3] firstPut.1
      (.request 2 (fun peer => peer ≠ 1) (utf8 (Request.get "k").line), secondGet.2) secondGet.1 :=
    .request (by decide) rfl
  exact ((Trace.refl _).step hput).step hget

theorem putThenGet_clients : ∀ p ∈ putThenGet, FromClient p.2.1 := by
  refine List.forall_mem_cons.2 ⟨fun request hparse => ?_, List.forall_mem_singleton.2 fun request hparse => ?_⟩
  · rw [Request.parse_line (by decide)] at hparse
    cases hparse
    exact ⟨nofun, nofun⟩
  · rw [Request.parse_line (by decide)] at hparse
    cases hparse
    exact ⟨nofun, nofun⟩

theorem putThenGet_fit : ∀ p ∈ putThenGet, DumpsFit [1, 2, 3] p.1 := by
  have hfit : DumpsFit [1, 2, 3] firstPut.1 ∧ DumpsFit [1, 2, 3] (freshServers [1, 2, 3]) :=
    ⟨by decide +kernel, by decide +kernel⟩
  exact List.forall_mem_cons.2 ⟨hfit.1, List.forall_mem_singleton.2 hfit.2⟩

/-- The second server reads what the first one has written. -/
theorem rounds_serial_get : effects putThenGet = [.write "k" (some "v"), .read "k" (some "v")] ∧
    ∃ m, Serial (fun _ => none) (effects putThenGet) m := by
  obtain ⟨m, hserial, -⟩ := rounds_serial (by decide) (by decide) putThenGet_trace putThenGet_clients putThenGet_fit
  exact ⟨by decide +kernel, m, hserial⟩

end NutDb.Server
