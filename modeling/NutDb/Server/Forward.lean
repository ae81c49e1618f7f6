/-
  Replica records over time.

  The records of a key are ordered by `rank`: by version, and of one version the
  committed record is the newer.  `merge` keeps the newest record, and all that a
  server does to its records is to merge, or to mark one as committed.  So along
  every run records only move forward (`records_forward`).

  A run is one of a single server: it takes requests, and it gets answers from its
  peers, which may be any texts, or none.
-/
import NutDb.Server.Node
import NutDb.Lib.Trace
import Mathlib.Data.Prod.Lex

namespace NutDb.Server

open Lib

/-! ## The order of records -/

/-- How new a record is. -/
def ReplicaValue.rank (record : ReplicaValue) : U64 ×ₗ Bool := toLex (record.version, record.committed)

/-- `merge` replaces older records. -/
theorem replaces_iff {current incoming : ReplicaValue} :
    replaces current incoming = true ↔ current.rank < incoming.rank := by
  rw [ReplicaValue.rank, ReplicaValue.rank, Prod.Lex.toLex_lt_toLex, Bool.lt_iff]
  simp only [replaces, Bool.or_eq_true, decide_eq_true_eq, Bool.and_eq_true, beq_iff_eq,
    Bool.not_eq_true', gt_iff_lt]
  rw [and_assoc, and_comm (a := incoming.committed = true), eq_comm (a := incoming.version)]

/-- The newer of two records has the larger of their ranks. -/
theorem rank_newer (current incoming : ReplicaValue) :
    (newer (some current) incoming).rank = max current.rank incoming.rank := by
  rw [newer]
  split_ifs with h
  · exact (max_eq_right (replaces_iff.1 h).le).symm
  · exact (max_eq_left (not_lt.1 (mt replaces_iff.2 h))).symm

/-- The second record may take the place of the first. -/
structure Follows (r r' : ReplicaValue) : Prop where
  rank : r.rank ≤ r'.rank
  content : r.committed = true → r'.version = r.version →
    r'.tombstone = r.tombstone ∧ r'.value = r.value

/-- No record is lost, and those that are replaced are replaced by followers. -/
def Forward (f f' : String → Option ReplicaValue) : Prop :=
  ∀ key r, f key = some r → ∃ r', f' key = some r' ∧ Follows r r'

section Order
variable {r r' r'' current incoming : ReplicaValue} {f f' f'' : String → Option ReplicaValue}

theorem version_le_of_rank (h : r.rank ≤ r'.rank) : r.version ≤ r'.version := by
  rcases Prod.Lex.toLex_le_toLex.1 h with h | ⟨h, -⟩
  · exact h.le
  · exact h.le

theorem committed_of_rank (h : r.rank ≤ r'.rank) (hver : r'.version = r.version)
    (hcom : r.committed = true) : r'.committed = true := by
  rcases Prod.Lex.toLex_le_toLex.1 h with h | ⟨-, h⟩
  · exact absurd hver h.ne'
  · change r.committed ≤ r'.committed at h
    rw [hcom] at h
    exact Bool.eq_true_of_true_le h

theorem Follows.refl (r : ReplicaValue) : Follows r r := ⟨le_rfl, fun _ _ => ⟨rfl, rfl⟩⟩

theorem Follows.trans (h : Follows r r') (h' : Follows r' r'') : Follows r r'' := by
  refine ⟨h.rank.trans h'.rank, fun hcom hver => ?_⟩
  have hle := version_le_of_rank h.rank
  have hle' := version_le_of_rank h'.rank
  have hver' : r'.version = r.version := le_antisymm (hver ▸ hle') hle
  obtain ⟨h1, h2⟩ := h.content hcom hver'
  obtain ⟨h3, h4⟩ := h'.content (committed_of_rank h.rank hver' hcom) (hver.trans hver'.symm)
  exact ⟨h3.trans h1, h4.trans h2⟩

/-- **Merging** moves a record forward. -/
theorem follows_newer (current incoming : ReplicaValue) :
    Follows current (newer (some current) incoming) := by
  refine ⟨(le_max_left _ _).trans_eq (rank_newer current incoming).symm, fun hcom hver => ?_⟩
  rw [newer] at hver ⊢
  split_ifs with h
  · rw [if_pos h] at hver
    simp [replaces, hver, hcom] at h
  · exact ⟨rfl, rfl⟩

/-- So does marking it as committed. -/
theorem follows_committed (r : ReplicaValue) : Follows r { r with committed := true } :=
  ⟨Prod.Lex.toLex_le_toLex.2 (Or.inr ⟨rfl, Bool.le_true _⟩), fun _ _ => ⟨rfl, rfl⟩⟩

theorem Forward.refl (f : String → Option ReplicaValue) : Forward f f := fun _ r h =>
  ⟨r, h, Follows.refl r⟩

theorem Forward.trans (h : Forward f f') (h' : Forward f' f'') : Forward f f'' := by
  intro key r hr
  obtain ⟨r', hr', h1⟩ := h key r hr
  obtain ⟨r'', hr'', h2⟩ := h' key r' hr'
  exact ⟨r'', hr'', h1.trans h2⟩

theorem Forward.update {key : String} (h : ∀ r, f key = some r → Follows r r') :
    Forward f (Function.update f key (some r')) := by
  intro k r hr
  by_cases hk : k = key
  · subst hk
    exact ⟨r', Function.update_self .., h r hr⟩
  · exact ⟨r, by rw [Function.update_of_ne hk, hr], Follows.refl r⟩

end Order

/-! ## What operations do -/

/-- The records of `m` move forward to those of `m'`. -/
def Moves (m m' : Records) : Prop := ∀ f, Decodes m f → ∃ f', Decodes m' f' ∧ Forward f f'

section Moves
variable {m m' m'' : Records} {key : String} {s : Server} {phase : Phase}

theorem Moves.refl (m : Records) : Moves m m := fun f h => ⟨f, h, Forward.refl f⟩

theorem Moves.trans (h : Moves m m') (h' : Moves m' m'') : Moves m m'' := by
  intro f hf
  obtain ⟨f', hf', h1⟩ := h f hf
  obtain ⟨f'', hf'', h2⟩ := h' f' hf'
  exact ⟨f'', hf'', h1.trans h2⟩

theorem merge_moves {record : ReplicaValue} (h : merge m key record = .ok m') : Moves m m' := by
  intro f hf
  refine ⟨_, hf.merge h, Forward.update fun current hcur => ?_⟩
  rw [hcur]
  exact follows_newer current record

theorem commitRecord_moves {version : U64} (h : commitRecord m key version = .ok m') : Moves m m' := by
  intro f hf
  rcases hf.commitRecord h with ⟨record, hrec, -, hf'⟩ | ⟨-, rfl⟩
  · refine ⟨_, hf', Forward.update fun current hcur => ?_⟩
    rw [hrec] at hcur
    cases hcur
    exact follows_committed record
  · exact Moves.refl m' f hf

theorem mergeAll_moves (rows : List (String × ReplicaValue)) (m : Records) :
    Moves m (mergeAll m rows).1 := by
  induction rows generalizing m with
  | nil => exact Moves.refl m
  | cons row rows ih =>
    rw [mergeAll]
    split
    · rename_i m' hmerge
      exact (merge_moves hmerge).trans (ih m')
    · exact Moves.refl m

theorem stored_moves {res : Res Records} (h : ∀ m', res = .ok m' → Moves s.store m') :
    Moves s.store (s.stored res).1.store := by
  cases res with
  | error e => exact Moves.refl _
  | ok m' => exact h m' rfl

/-- **A request** moves the records forward. -/
theorem handle_moves (s : Server) (frame : Bytes) : Moves s.store (s.handle frame).1.store := by
  unfold handle
  split
  · rename_i request _
    cases request with
    | repl key version tombstone value => exact stored_moves fun m' h => merge_moves h
    | commit key version => exact stored_moves fun m' h => commitRecord_moves h
    | _ => exact Moves.refl _
  · exact Moves.refl _

/-- **An answer** of a peer moves them forward, whatever it is. -/
theorem receive_moves (s : Server) (response : Option String) (phase : Phase) :
    Moves s.store (s.receive response phase).1.store := by
  unfold receive
  split
  · split_ifs <;> exact Moves.refl _
  · split
    · exact Moves.refl _
    · split
      · exact Moves.refl _
      · rename_i rows _
        have h := mergeAll_moves rows s.store
        split
        · rename_i hm
          rw [hm] at h
          exact h
        · rename_i hm
          rw [hm] at h
          exact h
  · split_ifs <;> exact Moves.refl _
  · split_ifs <;> exact Moves.refl _
  · exact Moves.refl _

/-- The end of a phase moves them forward. -/
theorem advance_moves (s : Server) (phase : Phase) : Moves s.store (s.advance phase).1.store := by
  unfold advance
  split
  · split_ifs <;> exact Moves.refl _
  · exact Moves.refl _
  · split <;> exact Moves.refl _
  · split_ifs
    · exact Moves.refl _
    · split
      · rename_i hm
        exact merge_moves hm
      · exact Moves.refl _
  · split_ifs <;> exact Moves.refl _
  · exact Moves.refl _

end Moves

/-! ## Runs -/

/-- A server, and how far it is with the request of a client. -/
structure Working where
  server : Server
  phase : Option Phase

/-- What a server gets: a request, or the answer of a peer to its own request, or no answer; and the
    end of a phase. -/
inductive Input where
  | request (frame : Bytes)
  | answer (response : Option String)
  | advance

namespace Working

/-- A server with an empty store. -/
def start (id : U64) (peers : List U64) : Working := ⟨⟨id, peers, [], []⟩, none⟩

/-- How the server goes on. -/
def next : Server × Next → Working
  | (s, .goOn phase) => ⟨s, some phase⟩
  | (s, .finish _) => ⟨s, none⟩

/-- A step of the server. -/
def step (w : Working) : Input → Option Working
  | .request frame =>
    match w.phase with
    | some _ => none
    | none =>
      match w.server.handle frame with
      | (s, .done _) => some ⟨s, none⟩
      | (s, .run op) => some ⟨s, some (s.start op)⟩
  | .answer response => do
    let phase ← w.phase
    let _ ← phase.ask
    return next (w.server.receive response phase)
  | .advance => do
    let phase ← w.phase
    if phase.ask = none then return next (w.server.advance phase) else none

theorem store_next (p : Server × Next) : (next p).server.store = p.1.store := by
  obtain ⟨s, n⟩ := p
  cases n <;> rfl

/-- **One step** moves the records forward. -/
theorem step_moves {w w' : Working} {input : Input} (h : w.step input = some w') :
    Moves w.server.store w'.server.store := by
  cases input with
  | request frame =>
    have hmoves := handle_moves w.server frame
    rw [step] at h
    split at h
    · cases h
    · split at h <;> rename_i heq <;> cases h <;> rw [heq] at hmoves <;> exact hmoves
  | answer response =>
    simp only [step, Option.bind_eq_bind, Option.bind_eq_some_iff, Option.pure_def,
      Option.some.injEq] at h
    obtain ⟨phase, -, _, -, rfl⟩ := h
    rw [store_next]
    exact receive_moves w.server response phase
  | advance =>
    simp only [step, Option.bind_eq_bind, Option.bind_eq_some_iff] at h
    obtain ⟨phase, -, h⟩ := h
    split_ifs at h
    cases h
    rw [store_next]
    exact advance_moves w.server phase

/-- The runs of a server. -/
abbrev Run : Working → List (Working × Input) → Working → Prop :=
  Trace fun w input w' => w.step input = some w'

theorem run_moves {w w' : Working} {steps : List (Working × Input)} (h : Run w steps w') :
    Moves w.server.store w'.server.store := by
  induction h with
  | refl => exact Moves.refl _
  | step _ hs ih => exact ih.trans (step_moves hs)

end Working

/-- A stored text is the encoding of a record. -/
theorem Decodes.lookup {m : Records} {f : String → Option ReplicaValue} (h : Decodes m f)
    {key encoded : String} (hl : m.lookup key = some encoded) :
    ∃ r, decodeRecord encoded = .ok r ∧ f key = some r := by
  have hread := h.read key
  simp only [readRecord, hl] at hread
  cases hd : decodeRecord encoded with
  | error e =>
    rw [hd] at hread
    cases hread
  | ok r =>
    rw [hd] at hread
    exact ⟨r, rfl, (Except.ok.inj hread).symm⟩

theorem Decodes.stored {m : Records} {f : String → Option ReplicaValue} (h : Decodes m f)
    {key : String} {r : ReplicaValue} (hr : f key = some r) :
    ∃ encoded, m.lookup key = some encoded ∧ decodeRecord encoded = .ok r := by
  have hread := h.read key
  rw [readRecord] at hread
  cases hl : m.lookup key with
  | none =>
    rw [hl, hr] at hread
    cases hread
  | some encoded =>
    obtain ⟨r', hd, hr'⟩ := h.lookup hl
    rw [hr] at hr'
    cases hr'
    exact ⟨encoded, rfl, hd⟩

/-- **Records only move forward**: in every run of a server that starts with an empty store, every
    stored text is a record, no key is lost, the pair of version and commit mark never decreases, and
    a committed record keeps its content while it keeps its version. -/
theorem records_forward {id : U64} {peers : List U64} {steps more : List (Working × Input)}
    {w w' : Working} (hrun : Working.Run (Working.start id peers) steps w)
    (hmore : Working.Run w more w') {key encoded : String}
    (hl : w.server.store.lookup key = some encoded) :
    ∃ r encoded' r', decodeRecord encoded = .ok r ∧ w'.server.store.lookup key = some encoded' ∧
      decodeRecord encoded' = .ok r' ∧
      (r.version < r'.version ∨ r.version = r'.version ∧ r.committed ≤ r'.committed) ∧
      (r.committed = true → r'.version = r.version → r'.tombstone = r.tombstone ∧ r'.value = r.value) := by
  obtain ⟨f, hf, -⟩ := Working.run_moves hrun _ Decodes.empty
  obtain ⟨f', hf', hforward⟩ := Working.run_moves hmore f hf
  obtain ⟨r, hdec, hr⟩ := hf.lookup hl
  obtain ⟨r', hr', hfollows⟩ := hforward key r hr
  obtain ⟨encoded', hl', hdec'⟩ := hf'.stored hr'
  exact ⟨r, encoded', r', hdec, hl', hdec', Prod.Lex.toLex_le_toLex.1 hfollows.rank, hfollows.content⟩

/-- A server that stores what a request asks for. -/
theorem step_stored {s : Server} {request : Request} {result : Res Records} {m : Records}
    (htexts : "" ∉ request.texts) (h : s.perform request = s.stored result) (hresult : result = .ok m) :
    Working.step ⟨s, none⟩ (.request (utf8 request.line)) = some ⟨{ s with store := m }, none⟩ := by
  have hhandle : s.handle (utf8 request.line) = ({ s with store := m }, .done (.ok "OK")) := by
    rw [handle, Request.parse_line htexts]
    exact h.trans (by rw [hresult]; rfl)
  simp only [Working.step, hhandle]

/-- A server that stages a record. -/
theorem step_staged : (Working.start 1 []).step (.request (utf8 (Request.repl "k" 1 false "v").line)) =
    some ⟨⟨1, [], [], [("k", encodeRecord ⟨1, false, false, "v"⟩)]⟩, none⟩ := by
  have hfits : Wal.Fits (Command.set "k" (encodeRecord ⟨1, false, false, "v"⟩)).encode := by decide
  refine step_stored (by decide) rfl (?_ : merge [] "k" ⟨1, false, false, "v"⟩ = _)
  change setRecord [] "k" (encodeRecord ⟨1, false, false, "v"⟩) = _
  rw [setRecord, Wal.append_of_fits hfits]
  rfl

/-- It commits the record, and takes another one of a higher version. -/
theorem run_overtaken : ∃ more,
    Working.Run ⟨⟨1, [], [], [("k", encodeRecord ⟨1, false, false, "v"⟩)]⟩, none⟩ more
      ⟨⟨1, [], [], [("k", encodeRecord ⟨2, false, false, "w"⟩)]⟩, none⟩ := by
  have hcommit : commitRecord [("k", encodeRecord ⟨1, false, false, "v"⟩)] "k" 1 =
      .ok [("k", encodeRecord ⟨1, false, true, "v"⟩)] := by
    have hfits : Wal.Fits (Command.set "k" (encodeRecord ⟨1, false, true, "v"⟩)).encode := by decide
    have hread : readRecord [("k", encodeRecord ⟨1, false, false, "v"⟩)] "k" = .ok (some ⟨1, false, false, "v"⟩) := by
      decide
    rw [commitRecord, hread, Res.ok_bind]
    change setRecord _ "k" (encodeRecord ⟨1, false, true, "v"⟩) = _
    rw [setRecord, Wal.append_of_fits hfits]
    rfl
  have hmerge : merge [("k", encodeRecord ⟨1, false, true, "v"⟩)] "k" ⟨2, false, false, "w"⟩ =
      .ok [("k", encodeRecord ⟨2, false, false, "w"⟩)] := by
    have hfits : Wal.Fits (Command.set "k" (encodeRecord ⟨2, false, false, "w"⟩)).encode := by decide
    have hread : readRecord [("k", encodeRecord ⟨1, false, true, "v"⟩)] "k" = .ok (some ⟨1, false, true, "v"⟩) := by
      decide
    rw [merge, hread, Res.ok_bind]
    change setRecord _ "k" (encodeRecord ⟨2, false, false, "w"⟩) = _
    rw [setRecord, Wal.append_of_fits hfits]
    rfl
  have hfirst : Working.step _ (.request (utf8 (Request.commit "k" 1).line)) = _ :=
    step_stored (s := ⟨1, [], [], [("k", encodeRecord ⟨1, false, false, "v"⟩)]⟩) (by decide) rfl hcommit
  have hsecond : Working.step _ (.request (utf8 (Request.repl "k" 2 false "w").line)) = _ :=
    step_stored (s := ⟨1, [], [], [("k", encodeRecord ⟨1, false, true, "v"⟩)]⟩) (by decide) rfl hmerge
  exact ⟨_, ((Trace.refl _).step hfirst).step hsecond⟩

/-- A record is staged; then it is committed, and overtaken by a record of a higher version. -/
theorem records_forward_staged : ∃ steps more w,
    Working.Run (Working.start 1 []) steps ⟨⟨1, [], [], [("k", encodeRecord ⟨1, false, false, "v"⟩)]⟩, none⟩ ∧
      Working.Run ⟨⟨1, [], [], [("k", encodeRecord ⟨1, false, false, "v"⟩)]⟩, none⟩ more w ∧
      w.server.store = [("k", encodeRecord ⟨2, false, false, "w"⟩)] ∧
      ∃ r encoded' r', decodeRecord (encodeRecord ⟨1, false, false, "v"⟩) = .ok r ∧
        w.server.store.lookup "k" = some encoded' ∧ decodeRecord encoded' = .ok r' ∧
        (r.version < r'.version ∨ r.version = r'.version ∧ r.committed ≤ r'.committed) ∧
        (r.committed = true → r'.version = r.version → r'.tombstone = r.tombstone ∧ r'.value = r.value) := by
  have hrun : Working.Run _ _ _ := (Trace.refl (Working.start 1 [])).step step_staged
  obtain ⟨more, hmore⟩ := run_overtaken
  exact ⟨_, more, _, hrun, hmore, rfl, records_forward hrun hmore (by decide)⟩

/-! ## Merging in any order -/

/-- The store after calls of `merge`: a call that fails leaves it as it was. -/
def mergeEach (m : Records) (rows : List (String × ReplicaValue)) : Records :=
  rows.foldl (fun m e => (merge m e.1 e.2).toOption.getD m) m

/-- The log takes the record. -/
def accepted (e : String × ReplicaValue) : Bool :=
  (Wal.append (Command.set e.1 (encodeRecord e.2)).encode).toOption.isSome

/-- The records of a key that the log takes. -/
def incoming (rows : List (String × ReplicaValue)) (key : String) : List ReplicaValue :=
  (rows.filter fun e => e.1 == key && accepted e).map Prod.snd

/-- A record of the highest rank, if there is a record. -/
def Highest (records : List ReplicaValue) : Option ReplicaValue → Prop
  | none => records = []
  | some record => record ∈ records ∧ ∀ r ∈ records, r.rank ≤ record.rank

section Highest
variable {records records' : List ReplicaValue} {current : Option ReplicaValue} {record : ReplicaValue}

theorem highest_toList (current : Option ReplicaValue) : Highest current.toList current := by
  cases current with
  | none => rfl
  | some record => exact ⟨List.mem_singleton_self _, fun r hr => (congrArg ReplicaValue.rank (List.mem_singleton.1 hr)).le⟩

/-- `merge` keeps a record of the highest rank. -/
theorem Highest.newer (h : Highest records current) (record : ReplicaValue) :
    Highest (records ++ [record]) (some (newer current record)) := by
  cases current with
  | none =>
    rw [h, List.nil_append]
    exact highest_toList (some record)
  | some current =>
    obtain ⟨hmem, hle⟩ := h
    have hrank := rank_newer current record
    refine ⟨?_, fun r hr => ?_⟩
    · rw [Server.newer]
      split_ifs
      · exact List.mem_append_right _ (List.mem_singleton_self _)
      · exact List.mem_append_left _ hmem
    · rw [hrank]
      rcases List.mem_append.1 hr with hr | hr
      · exact (hle r hr).trans (le_max_left _ _)
      · rw [List.mem_singleton.1 hr]
        exact le_max_right _ _

theorem eq_of_rank {r r' : ReplicaValue} (h : r.rank = r'.rank) (hvalue : r.value = r'.value)
    (htombstone : r.tombstone = r'.tombstone) : r = r' := by
  obtain ⟨hversion, hcommitted⟩ := Prod.mk.inj (toLex.injective h)
  cases r
  cases r'
  simp_all

/-- The records decide the highest rank, in any order and with any repetitions. -/
theorem Highest.rank_eq {o o' : Option ReplicaValue} (h : Highest records o) (h' : Highest records' o')
    (hsame : ∀ r, r ∈ records ↔ r ∈ records') : o.map ReplicaValue.rank = o'.map ReplicaValue.rank := by
  cases o with
  | none =>
    obtain rfl : records = [] := h
    cases o' with
    | none => rfl
    | some r' => exact absurd ((hsame r').2 h'.1) List.not_mem_nil
  | some r =>
    cases o' with
    | none =>
      obtain rfl : records' = [] := h'
      exact absurd ((hsame r).1 h.1) List.not_mem_nil
    | some r' =>
      have hrank := le_antisymm (h'.2 r ((hsame r).1 h.1)) (h.2 r' ((hsame r').2 h'.1))
      exact congrArg some hrank

end Highest

section Merge
variable {m : Records} {e : String × ReplicaValue} {key : String} {current : Option ReplicaValue}

/-- What `set` makes of the store, as far as one key can see. -/
theorem readRecord_set (h : readRecord m key = .ok current) :
    readRecord ((setRecord m e.1 (encodeRecord e.2)).toOption.getD m) key =
      .ok (if e.1 == key && accepted e then some e.2 else current) := by
  unfold setRecord accepted
  cases Wal.append (Command.set e.1 (encodeRecord e.2)).encode with
  | error err =>
    rw [if_neg (by simp [Except.toOption])]
    exact h
  | ok frame =>
    change readRecord (insertEntry e.1 (encodeRecord e.2) m) key = _
    rw [readRecord, lookup_insertEntry]
    by_cases hkey : key = e.1
    · rw [if_pos hkey, if_pos (by simp [hkey, Except.toOption])]
      simp only [decodeRecord_encodeRecord]
      rfl
    · rw [if_neg hkey, if_neg (by simp [Ne.symm hkey])]
      exact h

/-- A call of `merge`, as far as one key can see. -/
theorem readRecord_merge (h : readRecord m key = .ok current) :
    readRecord ((merge m e.1 e.2).toOption.getD m) key =
      .ok (if e.1 == key && accepted e then some (newer current e.2) else current) := by
  by_cases hkey : e.1 = key
  · rw [merge, hkey, h, Res.ok_bind]
    by_cases hreplace : (current.map fun current => replaces current e.2).getD true = true
    · have hnewer : newer current e.2 = e.2 := by
        cases current with
        | none => rfl
        | some current => exact if_pos hreplace
      rw [if_pos hreplace, hnewer, ← hkey]
      exact readRecord_set (hkey ▸ h)
    · have hnewer : some (newer current e.2) = current := by
        cases current with
        | none => exact absurd rfl hreplace
        | some current => exact congrArg some (if_neg hreplace)
      rw [if_neg hreplace, hnewer, ite_self]
      exact h
  · rw [if_neg (by simp [hkey])]
    unfold merge
    cases readRecord m e.1 with
    | error err => exact h
    | ok old =>
      rw [Res.ok_bind]
      split_ifs
      · have hset := readRecord_set (e := e) h
        rwa [if_neg (by simp [hkey])] at hset
      · exact h

/-- **The record of a key after merges** is one of the highest rank. -/
theorem highest_mergeEach (rows : List (String × ReplicaValue)) {records : List ReplicaValue}
    (h : readRecord m key = .ok current) (hcurrent : Highest records current) :
    ∃ final, readRecord (mergeEach m rows) key = .ok final ∧ Highest (records ++ incoming rows key) final := by
  induction rows generalizing m current records with
  | nil => exact ⟨current, h, by rwa [incoming, List.filter_nil, List.map_nil, List.append_nil]⟩
  | cons e rows ih =>
    have hmerge := readRecord_merge (e := e) h
    by_cases he : (e.1 == key && accepted e) = true
    · have hcons : incoming (e :: rows) key = e.2 :: incoming rows key :=
        congrArg (List.map Prod.snd) (List.filter_cons_of_pos (p := fun e : String × ReplicaValue => e.1 == key && accepted e) he)
      rw [if_pos he] at hmerge
      obtain ⟨final, hread, hfinal⟩ := ih hmerge (hcurrent.newer e.2)
      exact ⟨final, hread, by rwa [hcons, List.append_cons]⟩
    · have hcons : incoming (e :: rows) key = incoming rows key :=
        congrArg (List.map Prod.snd) (List.filter_cons_of_neg (p := fun e : String × ReplicaValue => e.1 == key && accepted e) he)
      rw [if_neg he] at hmerge
      obtain ⟨final, hread, hfinal⟩ := ih hmerge hcurrent
      exact ⟨final, hread, by rwa [hcons]⟩

theorem mem_incoming_congr {rows rows' : List (String × ReplicaValue)} (hsame : ∀ e, e ∈ rows ↔ e ∈ rows')
    (key : String) (r : ReplicaValue) : r ∈ incoming rows key ↔ r ∈ incoming rows' key := by
  simp only [incoming, List.mem_map, List.mem_filter, hsame]

theorem incoming_of_accepted {rows : List (String × ReplicaValue)} (h : ∀ e ∈ rows, accepted e = true) (key : String) :
    incoming rows key = (rows.filter fun e => e.1 == key).map Prod.snd := by
  refine congrArg _ (List.filter_congr fun e he => ?_)
  rw [h e he, Bool.and_true]

/-- **Merges give the same records in any order and with any repetitions.**  The log may refuse
    records; those that it takes decide. -/
theorem merge_order_independent {rows rows' : List (String × ReplicaValue)} (hsame : ∀ e, e ∈ rows ↔ e ∈ rows')
    (hread : readRecord m key = .ok current) :
    ∃ final final', readRecord (mergeEach m rows) key = .ok final ∧
      readRecord (mergeEach m rows') key = .ok final' ∧
      final.map ReplicaValue.rank = final'.map ReplicaValue.rank ∧
      Highest (current.toList ++ incoming rows key) final ∧
      ((∀ e ∈ rows, accepted e = true) →
        Highest (current.toList ++ (rows.filter fun e => e.1 == key).map Prod.snd) final) ∧
      ((∀ r r', Highest (current.toList ++ incoming rows key) (some r) →
          Highest (current.toList ++ incoming rows key) (some r') →
          r.value = r'.value ∧ r.tombstone = r'.tombstone) → final = final') := by
  obtain ⟨final, hfinal, hhigh⟩ := highest_mergeEach rows hread (highest_toList current)
  obtain ⟨final', hfinal', hhigh'⟩ := highest_mergeEach rows' hread (highest_toList current)
  have hmem : ∀ r, r ∈ current.toList ++ incoming rows key ↔ r ∈ current.toList ++ incoming rows' key := by
    intro r
    rw [List.mem_append, List.mem_append, mem_incoming_congr hsame]
  have hrank := hhigh.rank_eq hhigh' hmem
  refine ⟨final, final', hfinal, hfinal', hrank, hhigh, fun haccepted => ?_, fun hagree => ?_⟩
  · rwa [← incoming_of_accepted haccepted]
  · cases final with
    | none =>
      cases final' with
      | none => rfl
      | some r' => cases hrank
    | some r =>
      cases final' with
      | none => cases hrank
      | some r' =>
        have hr' : Highest (current.toList ++ incoming rows key) (some r') :=
          ⟨(hmem r').2 hhigh'.1, fun x hx => hhigh'.2 x ((hmem x).1 hx)⟩
        obtain ⟨hvalue, htombstone⟩ := hagree r r' hhigh hr'
        exact congrArg some (eq_of_rank (Option.some.inj hrank) hvalue htombstone)

end Merge

/-- Two stores that get two records of one version, in either order. -/
theorem merge_order_independent_two :
    ∃ final final',
      readRecord (mergeEach [] [("k", ⟨1, false, false, "a"⟩), ("k", ⟨1, false, true, "b"⟩)]) "k" = .ok final ∧
      readRecord (mergeEach [] [("k", ⟨1, false, true, "b"⟩), ("k", ⟨1, false, false, "a"⟩), ("k", ⟨1, false, true, "b"⟩)]) "k" =
        .ok final' ∧
      final.map ReplicaValue.rank = final'.map ReplicaValue.rank := by
  have hsame : ∀ e : String × ReplicaValue, e ∈ [("k", ⟨1, false, false, "a"⟩), ("k", ⟨1, false, true, "b"⟩)] ↔
      e ∈ [("k", ⟨1, false, true, "b"⟩), ("k", ⟨1, false, false, "a"⟩), ("k", ⟨1, false, true, "b"⟩)] := by
    intro e
    simp only [List.mem_cons, List.not_mem_nil, or_false]
    tauto
  have hread : readRecord [] "k" = .ok none := rfl
  obtain ⟨final, final', h1, h2, h3, -⟩ := merge_order_independent hsame hread
  exact ⟨final, final', h1, h2, h3⟩

end NutDb.Server
