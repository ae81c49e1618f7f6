/-
  Reads of a server (`client_read` of `src/server.rs`).

  A read counts the peers that answer a `PING`, and then merges the dumps of
  those of them that also answer a `DUMP`.  `ask` is the answer of a peer to a
  request: it may be lost, or be too long for a frame.

  A read should be backed by a majority: the server has merged the committed
  records of so many peers that they and itself are more than half of the nodes,
  and so reflects what a majority has committed.  `backed_iff` says which reads
  are: the dumps that arrive have to make up for those that do not, and no staged
  record of the server may be newer than what they bring.
-/
import NutDb.Server.Forward
import NutDb.Server.Write

namespace NutDb.Server

open Lib

/-- The limit of `write_frame` and `read_frame`. -/
def MAX_FRAME : ℕ := 16 * 1024 * 1024

/-- The servers behind the addresses of the peers, and which requests they answer in time. -/
structure Network where
  server : U64 → Server
  passes : U64 → Request → Bool

/-- `request_peer_fast`: the answer of a peer, if it arrives. -/
def Network.ask (net : Network) (peer : U64) (request : Request) : Option String :=
  if net.passes peer request then
    match ((net.server peer).handle (utf8 request.line)).2 with
    | .done response => (answerLine response).filter fun line => decide ((utf8 line).length ≤ MAX_FRAME)
    | .run _ => none
  else none

/-- `alive_peers`. -/
def alivePeers (s : Server) (net : Network) : List U64 :=
  s.unblocked.filter fun peer => decide (net.ask peer .ping = some ("PONG " ++ peer.print))

/-- `catch_up`, on the store. -/
def catchUp (net : Network) : List U64 → Records → Records × Res Unit
  | [], m => (m, .ok ())
  | peer :: peers, m =>
    match (net.ask peer .dump).bind (stripPrefix "DUMP ") with
    | none => catchUp net peers m
    | some text =>
      match decodeDump text with
      | .error e => (m, .error e)
      | .ok rows =>
        match mergeAll m rows with
        | (m, .ok ()) => catchUp net peers m
        | (m, .error e) => (m, .error e)

/-- `client_read`. -/
def clientRead (s : Server) (net : Network) (key : String) : Server × Res String :=
  let alive := s.alivePeers net
  if s.leader alive ≠ s.id then (s, .ok ("REDIRECT " ++ (s.leader alive).print))
  else if alive.length + 1 ≤ s.peers.length / 2 then (s, .ok "RETRY no-quorum")
  else
    match catchUp net alive s.store with
    | (m, .error e) => ({ s with store := m }, .error e)
    | (m, .ok ()) => ({ s with store := m }, (readRecord m key).map readLine)

/-! ## Phases -/

/-- A request runs through its phases, with the answers of the network, to its end. -/
inductive Served (net : Network) : Server → Phase → Server → Res String → Prop
  | asked {s phase peer request s' phase' s'' response} : phase.ask = some (peer, request) →
      s.receive (net.ask peer request) phase = (s', .goOn phase') →
      Served net s' phase' s'' response → Served net s phase s'' response
  | askedLast {s phase peer request s' response} : phase.ask = some (peer, request) →
      s.receive (net.ask peer request) phase = (s', .finish response) →
      Served net s phase s' response
  | advanced {s phase s' phase' s'' response} : phase.ask = none →
      s.advance phase = (s', .goOn phase') → Served net s' phase' s'' response →
      Served net s phase s'' response
  | advancedLast {s phase s' response} : phase.ask = none →
      s.advance phase = (s', .finish response) → Served net s phase s' response

section Phases
variable {net : Network} {s s' : Server} {response : Res String} {phase : Phase}

/-- The run of a request with the answers of the network. -/
theorem AnsweredBy.served (h : AnsweredBy net.ask s phase s' response) : Served net s phase s' response := by
  induction h with
  | asked hask hreceive _ ih => exact .asked hask hreceive ih
  | askedLast hask hreceive => exact .askedLast hask hreceive
  | advanced hask hadvance _ ih => exact .advanced hask hadvance ih
  | advancedLast hask hadvance => exact .advancedLast hask hadvance

theorem catchUpFrom_ask (net : Network) (peers : List U64) (m : Records) :
    catchUpFrom net.ask peers m = catchUp net peers m := by
  induction peers generalizing m with
  | nil => rfl
  | cons peer peers ih =>
    rw [catchUp, catchUpFrom]
    cases (net.ask peer .dump).bind (stripPrefix "DUMP ") with
    | none => exact ih m
    | some text =>
      dsimp only
      cases decodeDump text with
      | error e => rfl
      | ok rows =>
        dsimp only
        rcases mergeAll m rows with ⟨m', e | u⟩
        · rfl
        · exact ih m'

/-- **`client_read` is the run of its phases.** -/
theorem clientRead_served (net : Network) (s : Server) (key : String) :
    Served net s (s.start (.read key)) (s.clientRead net key).1 (s.clientRead net key).2 := by
  have halive : s.answering net.ask = s.alivePeers net := rfl
  refine AnsweredBy.served ?_
  unfold clientRead
  by_cases hleader : s.leader (s.alivePeers net) ≠ s.id
  · rw [if_pos hleader]
    exact answered_redirect (by rwa [halive])
  rw [if_neg hleader]
  by_cases hquorum : (s.alivePeers net).length + 1 ≤ s.peers.length / 2
  · rw [if_pos hquorum]
    exact answered_refused (by rwa [halive]) (by rwa [halive])
  rw [if_neg hquorum]
  refine answered_leads (by rwa [halive]) (by rwa [halive]) (fun m e hc => ?_) fun m hc => ?_
  · rw [halive, catchUpFrom_ask] at hc
    rw [hc]
    exact ⟨rfl, rfl⟩
  · rw [halive, catchUpFrom_ask] at hc
    rw [hc]
    exact .advancedLast rfl rfl

end Phases

/-! ## What a read has merged -/

/-- What the record of a key shows of a committed one: it is that record itself, or a committed one
    of a higher version. -/
def Reflects (current record : ReplicaValue) : Prop :=
  current.committed = true ∧ (record.version < current.version ∨ current = record)

/-- The store has the committed records of a peer, or newer committed ones. -/
def Merged (m : Records) (held : String → Option ReplicaValue) : Prop :=
  ∀ key record, held key = some record → record.committed = true →
    ∃ current, readRecord m key = .ok (some current) ∧ Reflects current record

/-- So many peers satisfy `P` that they and the server are more than half of the nodes. -/
def WithMajority (s : Server) (P : U64 → Prop) : Prop :=
  ∃ Q : Finset U64, (∀ peer ∈ Q, peer ∈ s.peers ∧ P peer) ∧ s.peers.length + 1 < 2 * (Q.card + 1)

/-- More than half of the nodes hold the record, committed. -/
def OnMajority (s : Server) (own : String → Option ReplicaValue)
    (held : U64 → String → Option ReplicaValue) (key : String) (record : ReplicaValue) : Prop :=
  record.committed = true ∧ ∃ Q : Finset U64, (∀ peer ∈ Q, peer ∈ s.peers ∧ held peer key = some record) ∧
    s.peers.length + 1 < 2 * (Q.card + if own key = some record then 1 else 0)

/-- The read of a key from `s` to `s'` with the answer `line` is backed by a majority. -/
structure BackedRead (s s' : Server) (own : String → Option ReplicaValue)
    (held : U64 → String → Option ReplicaValue) (key line : String) : Prop where
  merged : WithMajority s fun peer => Merged s'.store (held peer)
  reflects : ∀ record, OnMajority s own held key record →
    ∃ current, line = readLine (some current) ∧ Reflects current record

/-- The records of a key that a read sees: the server's own, and the committed ones of the peers
    that answer the `PING` and whose dumps arrive. -/
def offered (s : Server) (net : Network) (own : String → Option ReplicaValue)
    (held : U64 → String → Option ReplicaValue) (key : String) : List ReplicaValue :=
  (own key).toList ++ ((s.alivePeers net).filter fun peer => (net.ask peer .dump).isSome).filterMap
    fun peer => (held peer key).filter ReplicaValue.committed

/-- Of every key that the peer has committed, the first of the newest records that the read sees
    reflects the peer's. -/
def Covered (s : Server) (net : Network) (own : String → Option ReplicaValue)
    (held : U64 → String → Option ReplicaValue) (peer : U64) : Prop :=
  ∀ key record, held peer key = some record → record.committed = true →
    ∃ current ∈ (s.offered net own held key).argmax ReplicaValue.rank, Reflects current record

section Merged
variable {net : Network} {s s' : Server} {m m' : Records} {f own : String → Option ReplicaValue}
  {held : U64 → String → Option ReplicaValue} {key line : String} {record : ReplicaValue}

/-- The record of a key after the merge of others. -/
def newest (current : Option ReplicaValue) (records : List ReplicaValue) : Option ReplicaValue :=
  records.foldl (fun current record => some (newer current record)) current

/-- Merges keep the first of the newest records. -/
theorem newest_eq (current : Option ReplicaValue) (records : List ReplicaValue) :
    newest current records = (current.toList ++ records).argmax ReplicaValue.rank := by
  have hstep : (fun (o : Option ReplicaValue) r => some (newer o r)) =
      List.argAux fun b c => ReplicaValue.rank c < ReplicaValue.rank b := by
    funext o r
    cases o with
    | none => rfl
    | some c =>
      simp only [newer, List.argAux, replaces_iff]
      split_ifs <;> rfl
  rw [List.argmax, List.foldl_append, newest, hstep]
  cases current <;> rfl

/-- The rows of a dump that are about a key. -/
def rowsOf (rows : List (String × ReplicaValue)) (key : String) : List ReplicaValue :=
  (rows.filter fun e => e.1 == key).map Prod.snd

theorem mem_rowsOf {rows : List (String × ReplicaValue)} : record ∈ rowsOf rows key ↔ (key, record) ∈ rows := by
  simp [rowsOf]

/-- A record that is not older than the given one. -/
def Reaches (current : Option ReplicaValue) (record : ReplicaValue) : Prop :=
  ∃ r, current = some r ∧ record.rank ≤ r.rank

theorem reaches_newest {current : Option ReplicaValue} {records : List ReplicaValue} :
    Reaches (newest current records) record ↔
      Reaches current record ∨ ∃ r ∈ records, record.rank ≤ r.rank := by
  induction records generalizing current with
  | nil => simp [newest]
  | cons r records ih =>
    have hone : Reaches (some (newer current r)) record ↔ Reaches current record ∨ record.rank ≤ r.rank := by
      cases current with
      | none => simp [Reaches, newer]
      | some c => simp [Reaches, rank_newer]
    rw [newest, List.foldl_cons]
    refine ih.trans ?_
    rw [hone, List.exists_mem_cons_iff, or_assoc]

/-- What the merge of a dump leaves. -/
theorem mergeAll_newest {rows : List (String × ReplicaValue)} (h : Decodes m f)
    (hmerge : mergeAll m rows = (m', .ok ())) :
    ∃ f', Decodes m' f' ∧ ∀ key, f' key = newest (f key) (rowsOf rows key) := by
  induction rows generalizing m f with
  | nil =>
    cases hmerge
    exact ⟨f, h, fun key => rfl⟩
  | cons row rows ih =>
    obtain ⟨k, r⟩ := row
    rw [mergeAll] at hmerge
    cases hone : merge m k r with
    | error e =>
      rw [hone] at hmerge
      cases hmerge
    | ok m₁ =>
      rw [hone] at hmerge
      obtain ⟨f', hf', hnewest⟩ := ih (h.merge hone) hmerge
      refine ⟨f', hf', fun key => ?_⟩
      rw [hnewest]
      by_cases hk : key = k
      · rw [hk, Function.update_self, rowsOf, rowsOf, List.filter_cons_of_pos (by simp)]
        rfl
      · rw [Function.update_of_ne hk, rowsOf, rowsOf, List.filter_cons_of_neg (by simpa using Ne.symm hk)]

/-- A dump has one row for a committed record. -/
theorem rowsOf_committedRows {keys : List String} (hnodup : keys.Nodup)
    (hkeys : (f key).isSome → key ∈ keys) :
    rowsOf (committedRows f keys) key = ((f key).filter ReplicaValue.committed).toList := by
  have hrows : rowsOf (committedRows f keys) key =
      (keys.filter fun k => k == key).filterMap fun k => (f k).filter ReplicaValue.committed := by
    rw [rowsOf, committedRows, List.filter_filterMap, List.map_filterMap, List.filterMap_filter]
    refine List.filterMap_congr fun k _ => ?_
    cases (f k).filter ReplicaValue.committed <;> by_cases hk : k = key <;> simp [hk]
  rw [hrows, List.filter_beq]
  by_cases hmem : key ∈ keys
  · rw [List.count_eq_one_of_mem hnodup hmem, List.replicate_one]
    cases hr : (f key).filter ReplicaValue.committed with
    | none => exact List.filterMap_cons_none hr
    | some r => exact List.filterMap_cons_some hr
  · have hnone : f key = none := Option.not_isSome_iff_eq_none.1 (mt hkeys hmem)
    rw [List.count_eq_zero_of_not_mem hmem, hnone]
    rfl

/-- The answer to a `DUMP` has the committed records. -/
theorem ask_dump {peer : U64} (h : Decodes (net.server peer).store f) :
    net.ask peer .dump = none ∨ ∃ text rows, net.ask peer .dump = some ("DUMP " ++ text) ∧
      decodeDump text = .ok rows ∧
      ∀ key, rowsOf rows key = ((f key).filter ReplicaValue.committed).toList := by
  obtain ⟨text, hdump, hdec⟩ := h.dump_eq
  have hhandle : ((net.server peer).handle (utf8 Request.dump.line)).2 =
      .done (.ok ("DUMP " ++ text)) := by
    rw [handle, Request.parse_line (by decide)]
    simp only [perform, hdump]
    rfl
  have hnodup : ((net.server peer).store.map Prod.fst).Nodup :=
    (List.pairwise_map.2 h.sorted).imp fun hlt => ne_of_lt hlt
  unfold Network.ask
  split_ifs with hpass
  · simp only [hhandle, answerLine, Option.filter_some]
    split_ifs with hlen
    · exact Or.inr ⟨text, _, rfl, hdec,
        fun key => rowsOf_committedRows hnodup (h.mem_keys key).2⟩
    · exact Or.inl rfl
  · exact Or.inl rfl

/-- **What `catch_up` leaves**: the first of the newest records that the server had or was sent. -/
theorem catchUp_newest (hheld : ∀ peer, Decodes (net.server peer).store (held peer))
    {peers : List U64} (h : Decodes m f) (hcatch : catchUp net peers m = (m', .ok ())) :
    ∃ f', Decodes m' f' ∧ ∀ key, f' key = newest (f key)
      ((peers.filter fun peer => (net.ask peer .dump).isSome).filterMap
        fun peer => (held peer key).filter ReplicaValue.committed) := by
  induction peers generalizing m f with
  | nil =>
    cases hcatch
    exact ⟨f, h, fun key => rfl⟩
  | cons peer peers ih =>
    rw [catchUp] at hcatch
    rcases ask_dump (hheld peer) with hask | ⟨text, rows, hask, hdec, hrows⟩
    · simp only [hask, Option.bind_none] at hcatch
      obtain ⟨f', hf', hnewest⟩ := ih h hcatch
      refine ⟨f', hf', fun key => ?_⟩
      rw [hnewest, List.filter_cons_of_neg (by simp [hask])]
    · simp only [hask, Option.bind_some, stripPrefix_append, hdec] at hcatch
      rcases hmerge : mergeAll m rows with ⟨m₁, e | u⟩
      · simp only [hmerge] at hcatch
        cases hcatch
      · simp only [hmerge] at hcatch
        obtain ⟨f₁, hf₁, hnewest₁⟩ := mergeAll_newest h hmerge
        obtain ⟨f', hf', hnewest⟩ := ih hf₁ hcatch
        refine ⟨f', hf', fun key => ?_⟩
        rw [hnewest, hnewest₁, hrows, List.filter_cons_of_pos (by simp [hask])]
        rw [List.filterMap_cons]
        cases (held peer key).filter ReplicaValue.committed <;> rfl

/-- The answers of a read are those of its end: all others are refused before. -/
theorem clientRead_answered (hread : s.clientRead net key = (s', .ok line))
    (hline : line = "NIL" ∨ ∃ value, line = valueLine value) :
    catchUp net (s.alivePeers net) s.store = (s'.store, .ok ()) ∧
      (readRecord s'.store key).map readLine = .ok line := by
  have hother : ∀ start rest : String, start.toList.head? ≠ some 'N' → start.toList.head? ≠ some 'V' →
      start ≠ "" → line ≠ start ++ rest := by
    rintro start rest h1 h2 h3 rfl
    obtain ⟨c, cs, hcs⟩ := List.exists_cons_of_ne_nil (fun h => h3 (String.toList_inj.1 h) :
      start.toList ≠ [])
    rw [hcs, List.head?_cons] at h1 h2
    rcases hline with hline | ⟨value, hline⟩
    · have hlist := congrArg String.toList hline
      rw [String.toList_append, hcs] at hlist
      exact h1 (congrArg some (List.cons.inj hlist).1)
    · have hlist := congrArg String.toList hline
      rw [valueLine, String.toList_append, String.toList_append, hcs] at hlist
      exact h2 (congrArg some (List.cons.inj hlist).1)
  unfold clientRead at hread
  simp only at hread
  split_ifs at hread
  · cases hread
    exact absurd rfl (hother "REDIRECT " _ (by decide) (by decide) (by decide))
  · cases hread
    exact absurd rfl (hother "RETRY no-quorum" "" (by decide) (by decide) (by decide))
  · rcases hc : catchUp net (s.alivePeers net) s.store with ⟨m, e | u⟩
    · rw [hc] at hread
      cases hread
    · rw [hc] at hread
      have hstore : { s with store := m } = s' := (Prod.mk.inj hread).1
      rw [← hstore]
      exact ⟨rfl, (Prod.mk.inj hread).2⟩

/-- Merges of committed records keep what the current one shows. -/
theorem newest_reflects {current : ReplicaValue} {records : List ReplicaValue} (h : Reflects current record)
    (hcommitted : ∀ r ∈ records, r.committed = true) :
    ∃ r, newest (some current) records = some r ∧ Reflects r record := by
  induction records generalizing current with
  | nil => exact ⟨current, rfl, h⟩
  | cons r records ih =>
    refine ih ?_ fun r' hr' => hcommitted r' (List.mem_cons_of_mem _ hr')
    rw [newer]
    split_ifs with hr
    · -- both are committed, so the newer one has a higher version
      have hlt : current.version < r.version := by
        simpa [replaces, h.1] using hr
      refine ⟨hcommitted r List.mem_cons_self, Or.inl ?_⟩
      rcases h.2 with hver | rfl
      · exact hver.trans hlt
      · exact hlt
    · exact h

theorem committed_of_filterMap {peers : List U64} {r : ReplicaValue}
    (hr : r ∈ peers.filterMap fun peer => (held peer key).filter ReplicaValue.committed) :
    ∃ peer ∈ peers, held peer key = some r ∧ r.committed = true := by
  obtain ⟨peer, hpeer, hr⟩ := List.mem_filterMap.1 hr
  exact ⟨peer, hpeer, Option.filter_eq_some_iff.1 hr⟩

/-- **What a read finds**: the first of the newest records that it sees. -/
theorem clientRead_newest (hown : Decodes s.store own)
    (hheld : ∀ peer, Decodes (net.server peer).store (held peer))
    (hread : s.clientRead net key = (s', .ok line))
    (hline : line = "NIL" ∨ ∃ value, line = valueLine value) :
    (∀ k, readRecord s'.store k = .ok ((s.offered net own held k).argmax ReplicaValue.rank)) ∧
      line = readLine ((s.offered net own held key).argmax ReplicaValue.rank) := by
  obtain ⟨hcatch, hanswer⟩ := clientRead_answered hread hline
  obtain ⟨f', hf', hnewest⟩ := catchUp_newest hheld hown hcatch
  have hstore : ∀ k, readRecord s'.store k =
      .ok ((s.offered net own held k).argmax ReplicaValue.rank) := by
    intro k
    rw [hf'.read, hnewest, newest_eq]
    rfl
  rw [hstore] at hanswer
  exact ⟨hstore, (Except.ok.inj hanswer).symm⟩

/-- The committed records of the server itself are never lost by a read. -/
theorem covered_own (hown : own key = some record) (hcommitted : record.committed = true) :
    ∃ current ∈ (s.offered net own held key).argmax ReplicaValue.rank, Reflects current record := by
  have hself : Reflects record record := ⟨hcommitted, Or.inr rfl⟩
  have hdumped : ∀ r ∈ ((s.alivePeers net).filter fun peer => (net.ask peer .dump).isSome).filterMap
      (fun peer => (held peer key).filter ReplicaValue.committed), r.committed = true := fun r hr =>
    (committed_of_filterMap hr).choose_spec.2.2
  obtain ⟨r, hr, hreflects⟩ := newest_reflects hself hdumped
  refine ⟨r, ?_, hreflects⟩
  rw [newest_eq] at hr
  rwa [offered, hown]

/-- A majority that has merged reflects what a majority has committed: the two have a node in common. -/
theorem reflects_of_covered (h : WithMajority s (Covered s net own held))
    (hmajority : OnMajority s own held key record) :
    ∃ current ∈ (s.offered net own held key).argmax ReplicaValue.rank, Reflects current record := by
  obtain ⟨hcommitted, Q', hQ', hcard'⟩ := hmajority
  by_cases hown : own key = some record
  · exact covered_own hown hcommitted
  rw [if_neg hown] at hcard'
  obtain ⟨Q, hQ, hcard⟩ := h
  have hpeers : (Q ∪ Q').card ≤ s.peers.length := by
    refine (Finset.card_le_card fun peer hpeer => List.mem_toFinset.2 ?_).trans s.peers.toFinset_card_le
    rcases Finset.mem_union.1 hpeer with hpeer | hpeer
    · exact (hQ peer hpeer).1
    · exact (hQ' peer hpeer).1
  have hcommon : 0 < (Q ∩ Q').card := by
    have hsum := Finset.card_union_add_card_inter Q Q'
    omega
  obtain ⟨peer, hpeer⟩ := Finset.card_pos.1 hcommon
  obtain ⟨h1, h2⟩ := Finset.mem_inter.1 hpeer
  exact (hQ peer h1).2 key record (hQ' peer h2).2 hcommitted

/-- **Which reads are backed by a majority**: those in which the peers that are covered by what the
    server holds already, and gets in the dumps that arrive, are with it more than half of the nodes. -/
theorem backed_iff (hown : Decodes s.store own)
    (hheld : ∀ peer, Decodes (net.server peer).store (held peer))
    (hread : s.clientRead net key = (s', .ok line))
    (hline : line = "NIL" ∨ ∃ value, line = valueLine value) :
    BackedRead s s' own held key line ↔ WithMajority s (Covered s net own held) := by
  obtain ⟨hstore, hanswer⟩ := clientRead_newest hown hheld hread hline
  have hpeer : ∀ peer, Merged s'.store (held peer) ↔ Covered s net own held peer := by
    intro peer
    refine forall_congr' fun k => forall_congr' fun r => forall_congr' fun _ => forall_congr' fun _ => ?_
    simp only [hstore, Except.ok.injEq]
    rfl
  constructor
  · rintro ⟨hmerged, -⟩
    simpa only [WithMajority, hpeer] using hmerged
  · intro hcovered
    refine ⟨by simpa only [WithMajority, hpeer] using hcovered, fun r hr => ?_⟩
    obtain ⟨current, hcurrent, hreflects⟩ := reflects_of_covered hcovered hr
    exact ⟨current, by rw [hanswer, hcurrent], hreflects⟩

/-- The read of a server is backed if enough of its peers answer both requests, and of the records
    that it sees none is staged and no two of one version differ. -/
theorem backed_of_dumps (hnodup : s.peers.Nodup)
    (hdumps : s.peers.length + 1 <
      2 * (((s.alivePeers net).filter fun peer => (net.ask peer .dump).isSome).length + 1))
    (hcommitted : ∀ k r, own k = some r → r.committed = true)
    (hagree : ∀ k, ∀ r ∈ s.offered net own held k, ∀ r' ∈ s.offered net own held k,
      r.version = r'.version → r = r') :
    WithMajority s (Covered s net own held) := by
  have hsub : ((s.alivePeers net).filter fun peer => (net.ask peer .dump).isSome).Sublist s.peers :=
    List.filter_sublist.trans (List.filter_sublist.trans List.filter_sublist)
  refine ⟨((s.alivePeers net).filter fun peer => (net.ask peer .dump).isSome).toFinset,
    fun peer hpeer => ?_, ?_⟩
  · rw [List.mem_toFinset] at hpeer
    refine ⟨hsub.subset hpeer, fun k record hr hcom => ?_⟩
    have hmem : record ∈ s.offered net own held k :=
      List.mem_append_right _ (List.mem_filterMap.2 ⟨peer, hpeer, by rw [hr, Option.filter_some_pos hcom]⟩)
    obtain ⟨current, hcurrent⟩ := Option.ne_none_iff_exists'.1
      (mt List.argmax_eq_none.1 (List.ne_nil_of_mem hmem) : (s.offered net own held k).argmax ReplicaValue.rank ≠ none)
    have hin := List.argmax_mem hcurrent
    have hle : record.version ≤ current.version := version_le_of_rank (List.le_of_mem_argmax hmem hcurrent)
    refine ⟨current, hcurrent, ?_, ?_⟩
    · rcases List.mem_append.1 hin with hin | hin
      · exact hcommitted k current (Option.mem_toList.1 hin)
      · exact (committed_of_filterMap hin).choose_spec.2.2
    · rcases hle.lt_or_eq with hlt | heq
      · exact Or.inl hlt
      · exact Or.inr (hagree k _ hin _ hmem heq.symm)
  · rwa [List.toFinset_card_of_nodup (hsub.nodup hnodup)]

/-- A staged record that is newer than the committed ones hides a write that a majority has. -/
theorem not_backed_of_staged (hown : Decodes s.store own)
    (hheld : ∀ peer, Decodes (net.server peer).store (held peer))
    (hread : s.clientRead net key = (s', .ok line))
    (hline : line = "NIL" ∨ ∃ value, line = valueLine value) {staged : ReplicaValue}
    (hstaged : own key = some staged) (hnot : staged.committed = false)
    (hnewer : ∀ peer r, held peer key = some r → r.committed = true → r.version < staged.version)
    (hmajority : OnMajority s own held key record) : ¬ BackedRead s s' own held key line := by
  intro hbacked
  have hcovered := (backed_iff hown hheld hread hline).1 hbacked
  obtain ⟨current, hcurrent, hcommitted, -⟩ := reflects_of_covered hcovered hmajority
  have hmem : staged ∈ s.offered net own held key :=
    List.mem_append_left _ (by rw [hstaged]; exact List.mem_singleton_self _)
  have hle := version_le_of_rank (List.le_of_mem_argmax hmem hcurrent)
  rcases List.mem_append.1 (List.argmax_mem hcurrent) with hin | hin
  · rw [hstaged] at hin
    rw [List.mem_singleton.1 hin, hnot] at hcommitted
    cases hcommitted
  · obtain ⟨peer, -, hpeer, -⟩ := committed_of_filterMap hin
    exact absurd hle (not_le.2 (hnewer peer current hpeer hcommitted))

end Merged

/-! ## A read without dumps -/

/-- Two peers hold a committed record; only the `PING` of one of them is answered. -/
def lostDumps : Network where
  server i := ⟨i, [1, 2, 3].filter fun peer => decide (peer ≠ i), [],
    [("k", encodeRecord ⟨1, false, true, "v"⟩)]⟩
  passes peer request := decide (peer = 2 ∧ request = .ping)

/-- The committed record. -/
def heldRecord (key : String) : Option ReplicaValue :=
  Function.update (fun _ => none) "k" (some ⟨1, false, true, "v"⟩) key

theorem decodes_lostDumps (peer : U64) : Decodes (lostDumps.server peer).store heldRecord := by
  have hset : setRecord [] "k" (encodeRecord ⟨1, false, true, "v"⟩) =
      .ok [("k", encodeRecord ⟨1, false, true, "v"⟩)] := by
    rw [setRecord, Wal.append_of_fits (by decide)]
    rfl
  exact Decodes.empty.set hset

/-- The read counts the peer that answers its `PING`, gets no record from it, and answers `NIL`. -/
theorem clientRead_lostDumps :
    clientRead ⟨1, [2, 3], [], []⟩ lostDumps "k" = (⟨1, [2, 3], [], []⟩, .ok "NIL") := by
  have hping : lostDumps.ask 2 .ping = some ("PONG " ++ U64.print 2) := by
    have hhandle : ((lostDumps.server 2).handle (utf8 Request.ping.line)).2 =
        .done (.ok ("PONG " ++ U64.print 2)) := by
      rw [handle, Request.parse_line (by decide)]
      rfl
    have hlen : (utf8 ("PONG " ++ U64.print 2)).length ≤ MAX_FRAME := by decide
    rw [Network.ask, if_pos (by decide), hhandle]
    simp only [answerLine, Option.filter_some, hlen, decide_true, if_true]
  have hlost : ∀ peer request, ¬(peer = 2 ∧ request = Request.ping) →
      lostDumps.ask peer request = none := fun peer request h => if_neg (by simpa [lostDumps] using h)
  have halive : alivePeers ⟨1, [2, 3], [], []⟩ lostDumps = [2] := by
    have hunblocked : unblocked ⟨1, [2, 3], [], []⟩ = [2, 3] := by decide
    rw [alivePeers, hunblocked, List.filter_cons_of_pos (by simp [hping]),
      List.filter_cons_of_neg (by rw [hlost 3 .ping (by decide)]; simp), List.filter_nil]
  have hcatch : catchUp lostDumps [2] [] = ([], .ok ()) := by
    rw [catchUp, hlost 2 .dump (by decide)]
    rfl
  unfold clientRead
  simp only [halive]
  rw [if_neg (by decide), if_neg (by decide), hcatch]
  rfl

theorem backed_iff_lostDumps :
    BackedRead ⟨1, [2, 3], [], []⟩ ⟨1, [2, 3], [], []⟩ (fun _ => none) (fun _ => heldRecord) "k" "NIL" ↔
      WithMajority ⟨1, [2, 3], [], []⟩
        (Covered ⟨1, [2, 3], [], []⟩ lostDumps (fun _ => none) fun _ => heldRecord) :=
  backed_iff Decodes.empty decodes_lostDumps clientRead_lostDumps (Or.inl rfl)

/-- An answered read that no other node backs. -/
theorem unbacked_lostDumps : ¬ ∀ (s : Server) (net : Network) (own : String → Option ReplicaValue)
    (held : U64 → String → Option ReplicaValue) (key : String) (s' : Server) (line : String),
    Decodes s.store own → (∀ peer, Decodes (net.server peer).store (held peer)) →
    s.clientRead net key = (s', .ok line) → (line = "NIL" ∨ ∃ value, line = valueLine value) →
    BackedRead s s' own held key line := by
  intro h
  obtain ⟨⟨Q, hQ, hcard⟩, -⟩ := h _ _ _ (fun _ => heldRecord) _ _ _ Decodes.empty decodes_lostDumps
    clientRead_lostDumps (Or.inl rfl)
  have hpos : 0 < Q.card := by
    simp only [List.length_cons, List.length_nil] at hcard
    omega
  obtain ⟨peer, hpeer⟩ := Finset.card_pos.1 hpos
  obtain ⟨current, hread, -⟩ := (hQ peer hpeer).2 "k" ⟨1, false, true, "v"⟩ (Function.update_self ..) rfl
  cases hread

end NutDb.Server
