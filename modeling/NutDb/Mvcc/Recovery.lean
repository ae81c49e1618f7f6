/-
  What the recovery loop computes on the logs that the store writes.

  `Replayed R r commits`: the loop ends in `r` on the records `R`, and the
  committed write sets are `commits`, in order of their timestamps.  The relation
  is closed under prefixes, which is what a crash leaves.
-/
import NutDb.Mvcc.Store

namespace NutDb

open Lib

namespace Mvcc

namespace TxnRecord

/-- A record that the log accepts. -/
def Loggable (record : TxnRecord) : Prop := ∃ b, record.encode = .ok b ∧ Wal.Fits b

/-- The bytes of a record that can be encoded. -/
def payload (record : TxnRecord) : Bytes :=
  match record.encode with
  | .ok b => b
  | .error _ => []

/-- The records of writes, which are not synced. -/
def IsWrite : TxnRecord → Prop
  | set _ _ _ => True
  | delete _ _ => True
  | _ => False

variable {record : TxnRecord}

theorem Loggable.payload (h : record.Loggable) :
    record.encode = .ok record.payload ∧ Wal.Fits record.payload := by
  obtain ⟨b, hb, hfit⟩ := h
  simp only [TxnRecord.payload, hb]
  exact ⟨trivial, hfit⟩

theorem loggable_begin (txn snapshot : U64) : (begin txn snapshot).Loggable :=
  ⟨_, rfl, by simp [Wal.Fits]⟩

theorem loggable_commit (txn commitTs : U64) : (commit txn commitTs).Loggable :=
  ⟨_, rfl, by simp [Wal.Fits]⟩

theorem loggable_abort (txn : U64) : (abort txn).Loggable := ⟨_, rfl, by simp [Wal.Fits]⟩

end TxnRecord

/-- Appending a record: it is logged, or nothing happens. -/
theorem appendRecord_cases (record : TxnRecord) :
    (record.Loggable ∧ appendRecord record = .ok [.append (Wal.frame record.payload)]) ∨
    ∃ e, appendRecord record = .error e := by
  by_cases h : record.Loggable
  · obtain ⟨h1, h2⟩ := h.payload
    refine Or.inl ⟨h, ?_⟩
    simp only [appendRecord, h1, Res.ok_bind, Wal.append_of_fits h2]
    rfl
  · refine Or.inr ?_
    rcases he : record.encode with e | b
    · exact ⟨.io e, by simp only [appendRecord, he]; rfl⟩
    · have hfit : ¬ Wal.Fits b := fun hb => h ⟨b, he, hb⟩
      exact ⟨_, by simp only [appendRecord, he, Res.ok_bind, Wal.append, if_neg hfit]; rfl⟩

theorem appendRecord_of_loggable {record : TxnRecord} (h : record.Loggable) :
    appendRecord record = .ok [.append (Wal.frame record.payload)] := by
  obtain ⟨h1, h2⟩ := h.payload
  simp only [appendRecord, h1, Res.ok_bind, Wal.append_of_fits h2]
  rfl

/-! ## The recovery loop -/

/-- The records that the store writes in a state with the given recovery. -/
def Proper (r : Replay) (commits : List Writes) : TxnRecord → Prop
  | .begin txn _ => r.maxTxn.val < txn.val ∧ txn.val + 1 < 2 ^ 64
  | .commit _ commitTs => commitTs.val = commits.length + 1
  | _ => True

/-- The commits after a record. -/
def grow (r : Replay) (commits : List Writes) : TxnRecord → List Writes
  | .commit txn _ => commits ++ [(r.pending.lookup txn).getD []]
  | _ => commits

/-- The recovery loop on the records that the store writes. -/
inductive Replayed : List TxnRecord → Replay → List Writes → Prop
  | nil : Replayed [] {} []
  | snoc {R r r' commits record} : Replayed R r commits → record.Loggable → Proper r commits record →
      replayRecord r record = .ok r' → Replayed (R ++ [record]) r' (grow r commits record)

/-- The state of the recovery loop, as far as it is needed. -/
structure ReplayInv (r : Replay) (commits : List Writes) : Prop where
  reads : MapReads 0 commits r.versions
  commitTs : r.commitTs.val = commits.length
  maxTxn : r.maxTxn.val + 1 < 2 ^ 64
  begun : ∀ txn, (r.begun.lookup txn).isSome → txn ≤ r.maxTxn
  pending : ∀ txn writes, r.pending.lookup txn = some writes → SortedKeys writes ∧ txn ≤ r.maxTxn

section Replayed
variable {R Q : List TxnRecord} {r r' : Replay} {commits : List Writes} {record : TxnRecord}

theorem ensureBegun_eq_ok {begun : List (U64 × U64)} {txn : U64} {u : Unit} :
    ensureBegun begun txn = .ok u ↔ (begun.lookup txn).isSome := by
  unfold ensureBegun
  split_ifs with h
  · simp [h]
  · simp [h, invalid, Res.fail]

theorem sortedKeys_pending (h : ReplayInv r commits) (txn : U64) :
    SortedKeys ((r.pending.lookup txn).getD []) := by
  rcases hp : r.pending.lookup txn with _ | w
  · exact List.Pairwise.nil
  · exact (h.pending txn w hp).1

theorem grow_of_isWrite (h : record.IsWrite) : grow r commits record = commits := by
  cases record with
  | set _ _ _ => rfl
  | delete _ _ => rfl
  | begin _ _ => cases h
  | commit _ _ => cases h
  | abort _ => cases h

/-- What a record of the store does to the state of the loop. -/
theorem replayRecord_cases (h : replayRecord r record = .ok r') :
    (∃ txn snapshot, record = .begin txn snapshot ∧ r' = { r with
      maxTxn := max r.maxTxn txn
      begun := insertEntry txn snapshot r.begun
      pending := insertEntry txn ((r.pending.lookup txn).getD []) r.pending }) ∨
    (∃ txn key value, record.IsWrite ∧ (r.begun.lookup txn).isSome ∧ r' = r.buffer txn key value) ∨
    (∃ txn ts, record = .commit txn ts ∧ (r.begun.lookup txn).isSome ∧ r.commitTs < ts ∧ r' = { r with
      versions := applyVersions r.versions ((r.pending.lookup txn).getD []) ts
      pending := eraseKey txn r.pending
      begun := eraseKey txn r.begun
      commitTs := ts }) ∨
    (∃ txn, record = .abort txn ∧ r' = { r with
      pending := eraseKey txn r.pending
      begun := eraseKey txn r.begun }) := by
  cases record with
  | begin txn snapshot =>
    cases h
    exact Or.inl ⟨txn, snapshot, rfl, rfl⟩
  | set txn key value =>
    rw [replayRecord, Res.bind_eq_ok] at h
    obtain ⟨u, h1, h2⟩ := h
    cases h2
    exact Or.inr (Or.inl ⟨txn, key, some value, trivial, ensureBegun_eq_ok.1 h1, rfl⟩)
  | delete txn key =>
    rw [replayRecord, Res.bind_eq_ok] at h
    obtain ⟨u, h1, h2⟩ := h
    cases h2
    exact Or.inr (Or.inl ⟨txn, key, none, trivial, ensureBegun_eq_ok.1 h1, rfl⟩)
  | commit txn ts =>
    rw [replayRecord, Res.bind_eq_ok] at h
    obtain ⟨u, h1, h2⟩ := h
    split_ifs at h2 with hts
    · cases h2
    · cases h2
      exact Or.inr (Or.inr (Or.inl ⟨txn, ts, rfl, ensureBegun_eq_ok.1 h1, not_le.1 hts, rfl⟩))
  | abort txn =>
    cases h
    exact Or.inr (Or.inr (Or.inr ⟨txn, rfl, rfl⟩))

/-- **One record** keeps the invariant of the loop. -/
theorem ReplayInv.step (h : ReplayInv r commits) (hp : Proper r commits record)
    (hr : replayRecord r record = .ok r') : ReplayInv r' (grow r commits record) := by
  obtain ⟨txn, snapshot, rfl, rfl⟩ | ⟨txn, key, value, hw, hbegun, rfl⟩ | ⟨txn, ts, rfl, -, -, rfl⟩ |
    ⟨txn, rfl, rfl⟩ := replayRecord_cases hr
  · obtain ⟨h1, h2⟩ := hp
    have hmax : max r.maxTxn txn = txn := max_eq_right (Fin.le_def.2 (by omega))
    have hle : r.maxTxn ≤ txn := Fin.le_def.2 (by omega)
    refine ⟨h.reads, h.commitTs, by simp only [hmax]; exact h2, fun txn' hl => ?_,
      fun txn' writes hl => ?_⟩
    · simp only [lookup_insertEntry] at hl
      simp only [hmax]
      split_ifs at hl with htxn
      · exact htxn ▸ le_refl _
      · exact (h.begun txn' hl).trans hle
    · simp only [lookup_insertEntry] at hl
      simp only [hmax]
      split_ifs at hl with htxn
      · cases hl
        exact ⟨sortedKeys_pending h txn, htxn ▸ le_refl _⟩
      · obtain ⟨h3, h4⟩ := h.pending txn' writes hl
        exact ⟨h3, h4.trans hle⟩
  · rw [grow_of_isWrite hw]
    refine ⟨h.reads, h.commitTs, h.maxTxn, h.begun, fun txn' writes hl => ?_⟩
    simp only [Replay.buffer, lookup_insertEntry] at hl ⊢
    split_ifs at hl with htxn
    · cases hl
      exact ⟨sortedKeys_insertEntry (sortedKeys_pending h txn), htxn ▸ h.begun txn hbegun⟩
    · exact h.pending txn' writes hl
  · refine ⟨h.reads.applyVersions (by omega) (sortedKeys_pending h txn) hp, ?_, h.maxTxn, ?_, ?_⟩
    · simp only [grow, List.length_append, List.length_singleton]
      exact hp
    · intro txn' hl
      simp only [lookup_eraseKey] at hl
      split_ifs at hl
      · cases hl
      · exact h.begun txn' hl
    · intro txn' writes hl
      simp only [lookup_eraseKey] at hl
      split_ifs at hl
      exact h.pending txn' writes hl
  · refine ⟨h.reads, h.commitTs, h.maxTxn, fun txn' hl => ?_, fun txn' writes hl => ?_⟩
    · simp only [lookup_eraseKey] at hl
      split_ifs at hl
      · cases hl
      · exact h.begun txn' hl
    · simp only [lookup_eraseKey] at hl
      split_ifs at hl
      exact h.pending txn' writes hl

theorem replayInv_empty : ReplayInv {} [] :=
  ⟨mapReads_nil, rfl, by norm_num, fun _ h => by simp at h, fun _ _ h => by simp at h⟩

theorem Replayed.inv (h : Replayed R r commits) : ReplayInv r commits := by
  induction h with
  | nil => exact replayInv_empty
  | snoc _ _ hp hr ih => exact ih.step hp hr

/-- **The loop ends in this state** on the bytes of the records. -/
theorem Replayed.replayPayloads (h : Replayed R r commits) :
    replayPayloads (R.map TxnRecord.payload) = .ok r := by
  induction h with
  | nil => rfl
  | snoc _ hl _ hr ih =>
    unfold Mvcc.replayPayloads at ih ⊢
    rw [List.map_append, List.foldlM_append, ih, Res.ok_bind]
    simp only [List.map_cons, List.map_nil, List.foldlM_cons, List.foldlM_nil,
      TxnRecord.decode_encode hl.payload.1, Res.ok_bind, hr]
    rfl

theorem Replayed.loggable (h : Replayed R r commits) : ∀ record ∈ R, record.Loggable := by
  induction h with
  | nil => simp
  | snoc _ hl _ _ ih =>
    intro record hrec
    rcases List.mem_append.1 hrec with hrec | hrec
    · exact ih record hrec
    · rw [List.mem_singleton.1 hrec]; exact hl

theorem maxTxn_of_isWrite (hw : record.IsWrite) (hr : replayRecord r record = .ok r') :
    r'.maxTxn = r.maxTxn := by
  obtain ⟨_, _, rfl, -⟩ | ⟨_, _, _, -, -, rfl⟩ | ⟨_, _, rfl, -⟩ | ⟨_, rfl, -⟩ := replayRecord_cases hr
  · cases hw
  · rfl
  · cases hw
  · cases hw

/-- **Prefixes**: a log without some of its last writes has the same commits. -/
theorem Replayed.of_append (h : Replayed (R ++ Q) r commits) (hQ : ∀ record ∈ Q, record.IsWrite) :
    ∃ r₀, Replayed R r₀ commits ∧ r₀.maxTxn = r.maxTxn := by
  induction Q using List.reverseRecOn generalizing r commits with
  | nil => exact ⟨r, by simpa using h, rfl⟩
  | append_singleton Q record ih =>
    rw [← List.append_assoc] at h
    generalize hS : R ++ Q ++ [record] = S at h
    cases h with
    | nil => simp at hS
    | snoc h hl hp hr =>
      obtain ⟨rfl, heq⟩ := List.append_inj' hS rfl
      cases heq
      have hw := hQ record (by simp)
      rw [grow_of_isWrite hw]
      obtain ⟨r₀, h1, h2⟩ := ih h fun x hx => hQ x (by simp [hx])
      exact ⟨r₀, h1, h2.trans (maxTxn_of_isWrite hw hr).symm⟩

end Replayed

end Mvcc

end NutDb
