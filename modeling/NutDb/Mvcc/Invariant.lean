/-
  The invariant of the transactional store.

  It relates the log, the memory of the store, and the history of commits:
  recovering the log gives the history, the memory shows it at every snapshot
  that is still in use, and the buffer of a transaction is what its records in
  the log say.
-/
import NutDb.Mvcc.Recovery
import NutDb.Mvcc.System

namespace NutDb

open Lib

namespace Mvcc

/-! ## The log -/

/-- A log that is not in use, from which the commits are recovered. -/
def Stored (d : Disk Unit) (commits : List Writes) (ids : List U64) : Prop :=
  ∃ R r, Wal.Leaves (d ()) (R.map TxnRecord.payload) ∧ Replayed R r commits ∧ ∀ id ∈ ids, id ≤ r.maxTxn

/-- The log of a running store: only writes are not synced. -/
structure Logging (d : Disk Unit) (r : Replay) (commits : List Writes) (ids : List U64) : Prop where
  replayed : ∃ f R Q, d () = some f ∧
    Wal.Logs f (R.map TxnRecord.payload) (Q.map TxnRecord.payload) ∧
    (∀ record ∈ Q, record.IsWrite) ∧ Replayed (R ++ Q) r commits
  issued : ∀ id ∈ ids, id ≤ r.maxTxn

section Log
variable {d d' : Disk Unit} {r r' : Replay} {commits : List Writes} {ids : List U64}
  {record : TxnRecord}

theorem Logging.inv (h : Logging d r commits ids) : ReplayInv r commits := by
  obtain ⟨f, R, Q, -, -, -, hr⟩ := h.replayed
  exact hr.inv

theorem runOps_onLog (d : Disk Unit) (ops : List FileOp) :
    d.runOps (onLog ops) () = (d ()).map (ops.foldl fun f op => op.run f) :=
  Disk.runOps_file_self d ops

/-- What a crash leaves of a log with unsynced writes. -/
theorem stored_of_crashed {f : File} {R Q : List TxnRecord}
    (hf : Wal.Logs f (R.map TxnRecord.payload) (Q.map TxnRecord.payload))
    (hQ : ∀ record ∈ Q, record.IsWrite) (hr : Replayed (R ++ Q) r commits)
    (hids : ∀ id ∈ ids, id ≤ r.maxTxn) (hc : CrashedFile (some f) (d' ())) :
    Stored d' commits ids := by
  obtain ⟨qs₁, qs₂, hq, hl⟩ := hf.crashed hc
  obtain ⟨Q₁, Q₂, rfl, rfl, rfl⟩ := List.map_eq_append_iff.1 hq
  rw [← List.append_assoc] at hr
  obtain ⟨r₀, hr₀, hmax⟩ := hr.of_append fun x hx => hQ x (by simp [hx])
  exact ⟨R ++ Q₁, r₀, by rwa [List.map_append], hr₀, fun id hid => hmax ▸ hids id hid⟩

theorem Logging.crashed (h : Logging d r commits ids) (hc : d.Crashed d') : Stored d' commits ids := by
  obtain ⟨f, R, Q, hd, hf, hQ, hr⟩ := h.replayed
  have hcn := hc ()
  rw [hd] at hcn
  exact stored_of_crashed hf hQ hr h.issued hcn

/-- Ids stay below the largest one. -/
theorem maxTxn_le (hr : replayRecord r record = .ok r') : r.maxTxn ≤ r'.maxTxn := by
  obtain ⟨_, _, -, rfl⟩ | ⟨_, _, _, -, -, rfl⟩ | ⟨_, _, -, -, -, rfl⟩ | ⟨_, -, rfl⟩ :=
    replayRecord_cases hr
  · exact le_max_left _ _
  · exact le_refl _
  · exact le_refl _
  · exact le_refl _

/-- **Logging a write.** -/
theorem Logging.write (h : Logging d r commits ids) (hw : record.IsWrite) (hl : record.Loggable)
    (hr : replayRecord r record = .ok r') :
    Logging (d.runOps (onLog [.append (Wal.frame record.payload)])) r' commits ids := by
  obtain ⟨f, R, Q, hd, hf, hQ, hrep⟩ := h.replayed
  have hp : Proper r commits record := by cases record <;> trivial
  have hrep' := hrep.snoc hl hp hr
  rw [grow_of_isWrite hw, List.append_assoc] at hrep'
  refine ⟨⟨_, R, Q ++ [record], by rw [runOps_onLog, hd]; rfl, ?_, fun x hx => ?_, hrep'⟩,
    fun id hid => (h.issued id hid).trans (maxTxn_le hr)⟩
  · rw [List.map_append]
    exact hf.append hl.payload.2
  · rcases List.mem_append.1 hx with hx | hx
    · exact hQ x hx
    · rw [List.mem_singleton.1 hx]; exact hw

/-- **Logging a record and syncing.** -/
theorem Logging.sync (h : Logging d r commits ids) (hl : record.Loggable)
    (hp : Proper r commits record) (hr : replayRecord r record = .ok r') :
    Logging (d.runOps (onLog [.append (Wal.frame record.payload), .sync])) r' (grow r commits record)
      ids := by
  obtain ⟨f, R, Q, hd, hf, hQ, hrep⟩ := h.replayed
  refine ⟨⟨_, R ++ Q ++ [record], [], by rw [runOps_onLog, hd]; rfl, ?_, by simp, ?_⟩,
    fun id hid => (h.issued id hid).trans (maxTxn_le hr)⟩
  · have := (hf.append hl.payload.2).sync
    simpa using this
  · rw [List.append_nil]
    exact hrep.snoc hl hp hr

/-- **A crash while a record is logged**: it is there or not. -/
theorem Logging.crash_record {ops : List FileOp} {k : ℕ} (h : Logging d r commits ids)
    (hl : record.Loggable) (hp : Proper r commits record) (hr : replayRecord r record = .ok r')
    (hops : ops = [.append (Wal.frame record.payload)] ∨
      ops = [.append (Wal.frame record.payload), .sync])
    (hc : (d.runOps (onLog (ops.take k))).Crashed d') :
    Stored d' commits ids ∨ Stored d' (grow r commits record) ids := by
  obtain ⟨f, R, Q, hd, hf, hQ, hrep⟩ := h.replayed
  have hrep' := hrep.snoc hl hp hr
  have happ : (d.runOps (onLog [.append (Wal.frame record.payload)])).Crashed d' →
      Stored d' commits ids ∨ Stored d' (grow r commits record) ids := by
    intro hc
    have hcn := hc ()
    rw [runOps_onLog, hd] at hcn
    obtain ⟨qs₁, qs₂, hq, hleft⟩ := (hf.append hl.payload.2).crashed hcn
    rw [← List.map_singleton (f := TxnRecord.payload), ← List.map_append] at hq
    obtain ⟨Q₁, Q₂, hQ', rfl, rfl⟩ := List.map_eq_append_iff.1 hq
    rw [← List.map_append] at hleft
    rcases List.eq_nil_or_concat Q₂ with rfl | ⟨Q₃, x, rfl⟩
    · -- the record is there
      rw [List.append_nil] at hQ'
      refine Or.inr ⟨R ++ Q₁, r', hleft, ?_, fun id hid => (h.issued id hid).trans (maxTxn_le hr)⟩
      rw [← hQ', ← List.append_assoc]
      exact hrep'
    · -- it is cut off, and perhaps some writes
      rw [List.concat_eq_append, ← List.append_assoc] at hQ'
      obtain ⟨rfl, -⟩ := List.append_inj' hQ' rfl
      rw [← List.append_assoc] at hrep
      obtain ⟨r₀, hr₀, hmax⟩ := hrep.of_append fun y hy => hQ y (by simp [hy])
      exact Or.inl ⟨R ++ Q₁, r₀, hleft, hr₀, fun id hid => hmax ▸ h.issued id hid⟩
  rcases hops with rfl | rfl
  · rcases k with _ | k
    · exact Or.inl (h.crashed hc)
    · rw [List.take_succ_cons, List.take_nil] at hc
      exact happ hc
  · rcases k with _ | _ | k
    · exact Or.inl (h.crashed hc)
    · exact happ hc
    · rw [List.take_succ_cons, List.take_succ_cons, List.take_nil] at hc
      exact Or.inr ((h.sync hl hp hr).crashed hc)

/-- **Opening the store** recovers the commits. -/
theorem Stored.open (h : Stored d commits ids) : ∃ ops inner r, openStore d = (ops, .ok inner) ∧
    inner = ⟨r.versions, [], inner.nextTxn, r.commitTs⟩ ∧ inner.nextTxn.val = r.maxTxn.val + 1 ∧
    Logging (d.runOps ops) r commits ids ∧
    ∀ k d', (d.runOps (ops.take k)).Crashed d' → Stored d' commits ids := by
  obtain ⟨R, r, hl, hr, hids⟩ := h
  obtain ⟨next, hnext⟩ : ∃ next, r.maxTxn.checkedAdd 1 = some next :=
    ⟨⟨r.maxTxn.val + 1, hr.inv.maxTxn⟩, U64.checkedAdd_eq_some.2 rfl⟩
  obtain ⟨⟨f, hf, hlogs⟩, hcrash⟩ := hl.openOps
  refine ⟨Wal.openOps () (Wal.replayPath ((d ()).map File.bytes)), ⟨r.versions, [], next, r.commitTs⟩, r,
    ?_, rfl, U64.checkedAdd_eq_some.1 hnext, ?_, fun k d' hc => ?_⟩
  · simp only [openStore, hl.records, hr.replayPayloads, hnext]
  · exact ⟨⟨f, R, [], hf, by simpa using hlogs, by simp, by simpa using hr⟩, hids⟩
  · exact ⟨R, r, hcrash k d' hc, hr, hids⟩

end Log

/-! ## The memory -/

/-- An unfinished transaction: it is active, and its buffer is what its records say. -/
structure Open (inner : Inner) (r : Replay) (t : Transaction) : Prop where
  unfinished : t.finished = false
  active : inner.active.lookup t.id = some t.snapshot
  begun : (r.begun.lookup t.id).isSome
  pending : r.pending.lookup t.id = some t.writes

/-- The memory of a running store, with the commits and the state of the recovery of its log. -/
structure Memory (inner : Inner) (txns : ℕ → Option Transaction) (r : Replay)
    (commits : List Writes) : Prop where
  reads : ∃ low, MapReads low commits inner.versions ∧ low ≤ commits.length ∧
    ∀ e ∈ inner.active, low ≤ e.2.val ∧ e.2.val ≤ commits.length
  commitTs : inner.commitTs = r.commitTs
  nextTxn : inner.nextTxn.val = r.maxTxn.val + 1
  opened : ∀ h t, txns h = some t → Open inner r t
  distinct : ∀ h h' t t', txns h = some t → txns h' = some t' → t.id = t'.id → h = h'

section Memory
variable {inner : Inner} {txns : ℕ → Option Transaction} {r : Replay} {commits : List Writes}
  {h : ℕ} {t : Transaction}

theorem Memory.snapshot (hm : Memory inner txns r commits) (ht : txns h = some t) :
    ∃ low, MapReads low commits inner.versions ∧ low ≤ t.snapshot.val ∧
      t.snapshot.val ≤ commits.length := by
  obtain ⟨low, hreads, -, hact⟩ := hm.reads
  have := hact _ (mem_of_lookup (hm.opened h t ht).active)
  exact ⟨low, hreads, this⟩

/-- The transaction behind another handle has another id. -/
theorem Memory.id_ne (hm : Memory inner txns r commits) (ht : txns h = some t) {h' : ℕ}
    {t' : Transaction} (ht' : txns h' = some t') (hne : h' ≠ h) : t'.id ≠ t.id :=
  fun heq => hne (hm.distinct h' h t' t ht' ht heq)

theorem distinct_update (hm : Memory inner txns r commits) {t' : Transaction}
    (hid : ∀ h' t₁, h' ≠ h → txns h' = some t₁ → t₁.id ≠ t'.id) :
    ∀ h₁ h₂ t₁ t₂, Function.update txns h (some t') h₁ = some t₁ →
      Function.update txns h (some t') h₂ = some t₂ → t₁.id = t₂.id → h₁ = h₂ := by
  intro h₁ h₂ t₁ t₂ e₁ e₂ heq
  simp only [Function.update_apply] at e₁ e₂
  split_ifs at e₁ e₂ with c₁ c₂ c₂
  · rw [c₁, c₂]
  · cases e₁
    exact absurd heq.symm (hid h₂ t₂ c₂ e₂)
  · cases e₂
    exact absurd heq (hid h₁ t₁ c₁ e₁)
  · exact hm.distinct h₁ h₂ t₁ t₂ e₁ e₂ heq

theorem update_none_eq_some {h₁ : ℕ} {t₁ : Transaction} :
    Function.update txns h none h₁ = some t₁ ↔ h₁ ≠ h ∧ txns h₁ = some t₁ := by
  rw [Function.update_apply]
  split_ifs with c <;> simp [c]

/-- **Buffering a write.** -/
theorem Memory.write (hm : Memory inner txns r commits) (ht : txns h = some t) (key : String)
    (value : Option String) :
    Memory inner (Function.update txns h (some { t with writes := insertEntry key value t.writes }))
      (r.buffer t.id key value) commits := by
  have ho := hm.opened h t ht
  refine ⟨hm.reads, hm.commitTs, hm.nextTxn, fun h' t' ht' => ?_, distinct_update hm fun h' t₁ hne h₁ =>
    hm.id_ne ht h₁ hne⟩
  rw [Function.update_apply] at ht'
  split_ifs at ht' with hh
  · cases ht'
    refine ⟨ho.unfinished, ho.active, ho.begun, ?_⟩
    simp [Replay.buffer, lookup_insertEntry, ho.pending]
  · have ho' := hm.opened h' t' ht'
    refine ⟨ho'.unfinished, ho'.active, ho'.begun, ?_⟩
    simp only [Replay.buffer, lookup_insertEntry, if_neg (hm.id_ne ht ht' hh)]
    exact ho'.pending

/-- **A transaction begins.** -/
theorem Memory.begin {next : U64} (hm : Memory inner txns r commits) (hi : ReplayInv r commits)
    (hnext : next.val = inner.nextTxn.val + 1) :
    Memory { inner with nextTxn := next, active := insertEntry inner.nextTxn inner.commitTs inner.active }
      (Function.update txns h (some { id := inner.nextTxn, snapshot := inner.commitTs }))
      { r with
        maxTxn := max r.maxTxn inner.nextTxn
        begun := insertEntry inner.nextTxn inner.commitTs r.begun
        pending := insertEntry inner.nextTxn ((r.pending.lookup inner.nextTxn).getD []) r.pending }
      commits := by
  have hn := hm.nextTxn
  have hmax : max r.maxTxn inner.nextTxn = inner.nextTxn := max_eq_right (Fin.le_def.2 (by omega))
  have hts : inner.commitTs.val = commits.length := by rw [hm.commitTs]; exact hi.commitTs
  -- the id is new
  have hfresh : ∀ txn, txn ≤ r.maxTxn → txn ≠ inner.nextTxn := fun txn hle heq => by
    have := Fin.le_def.1 hle
    rw [heq] at this
    omega
  have hids : ∀ h' t', txns h' = some t' → t'.id ≠ inner.nextTxn := fun h' t' ht' =>
    hfresh _ (hi.begun _ (hm.opened h' t' ht').begun)
  have hpend : r.pending.lookup inner.nextTxn = none := by
    rcases hp : r.pending.lookup inner.nextTxn with _ | w
    · rfl
    · exact absurd rfl (hfresh _ (hi.pending _ _ hp).2)
  refine ⟨?_, hm.commitTs, by simp only [hmax]; exact hnext, fun h' t' ht' => ?_,
    distinct_update hm fun h' t₁ _ h₁ => hids h' t₁ h₁⟩
  · obtain ⟨low, hreads, hlow, hact⟩ := hm.reads
    refine ⟨low, hreads, hlow, fun e he => ?_⟩
    rcases mem_insertEntry he with rfl | he
    · exact ⟨by simp only [hts]; exact hlow, by simp only [hts]; exact le_refl _⟩
    · exact hact e he
  · rw [Function.update_apply] at ht'
    split_ifs at ht' with hh
    · cases ht'
      exact ⟨rfl, by simp [lookup_insertEntry], by simp [lookup_insertEntry],
        by simp [lookup_insertEntry, hpend]⟩
    · have ho' := hm.opened h' t' ht'
      have hne := hids h' t' ht'
      exact ⟨ho'.unfinished, by simpa [lookup_insertEntry, hne] using ho'.active,
        by simpa [lookup_insertEntry, hne] using ho'.begun,
        by simpa [lookup_insertEntry, hne] using ho'.pending⟩

/-- **A transaction ends** without effect: its records are forgotten by the recovery or not. -/
theorem Memory.finish {r' : Replay} (hm : Memory inner txns r commits) (ht : txns h = some t)
    (hr : r' = r ∨ r' = { r with pending := eraseKey t.id r.pending, begun := eraseKey t.id r.begun }) :
    Memory { inner with active := eraseKey t.id inner.active } (Function.update txns h none) r' commits := by
  have hother : ∀ h' t', h' ≠ h → txns h' = some t' → Open { inner with active := eraseKey t.id inner.active } r' t' := by
    intro h' t' hne ht'
    have ho' := hm.opened h' t' ht'
    have hid := hm.id_ne ht ht' hne
    refine ⟨ho'.unfinished, by simpa [lookup_eraseKey, hid] using ho'.active, ?_, ?_⟩
    · rcases hr with rfl | rfl
      · exact ho'.begun
      · simpa [lookup_eraseKey, hid] using ho'.begun
    · rcases hr with rfl | rfl
      · exact ho'.pending
      · simpa [lookup_eraseKey, hid] using ho'.pending
  refine ⟨?_, ?_, ?_, fun h' t' ht' => ?_, fun h₁ h₂ t₁ t₂ e₁ e₂ => ?_⟩
  · obtain ⟨low, hreads, hlow, hact⟩ := hm.reads
    exact ⟨low, hreads, hlow, fun e he => hact e (List.mem_of_mem_filter he)⟩
  · rcases hr with rfl | rfl <;> exact hm.commitTs
  · rcases hr with rfl | rfl <;> exact hm.nextTxn
  · obtain ⟨hne, ht'⟩ := update_none_eq_some.1 ht'
    exact hother h' t' hne ht'
  · exact hm.distinct h₁ h₂ t₁ t₂ (update_none_eq_some.1 e₁).2 (update_none_eq_some.1 e₂).2

/-- **A transaction commits.** -/
theorem Memory.commit {ts : U64} (hm : Memory inner txns r commits) (hi : ReplayInv r commits)
    (ht : txns h = some t) (hts : ts.val = inner.commitTs.val + 1) :
    Memory { inner with
        versions := applyVersions inner.versions t.writes ts
        commitTs := ts
        active := eraseKey t.id inner.active } (Function.update txns h none)
      { r with
        versions := applyVersions r.versions ((r.pending.lookup t.id).getD []) ts
        pending := eraseKey t.id r.pending
        begun := eraseKey t.id r.begun
        commitTs := ts } (commits ++ [t.writes]) := by
  have hf := hm.finish ht (Or.inr rfl)
  have hc : inner.commitTs.val = commits.length := by rw [hm.commitTs]; exact hi.commitTs
  have hsort := (hi.pending _ _ (hm.opened h t ht).pending).1
  refine ⟨?_, rfl, hf.nextTxn, fun h' t' ht' => ?_, hf.distinct⟩
  · obtain ⟨low, hreads, hlow, hact⟩ := hf.reads
    refine ⟨low, hreads.applyVersions hlow hsort (by omega), by simp; omega, fun e he => ?_⟩
    have := hact e he
    simp only [List.length_append, List.length_singleton]
    omega
  · have ho' := hf.opened h' t' ht'
    exact ⟨ho'.unfinished, ho'.active, ho'.begun, ho'.pending⟩

/-- The watermark of a collection is at most just above every snapshot that is in use. -/
theorem watermark_le (inner : Inner) : inner.watermark.val ≤ inner.commitTs.val + 1 ∨
    ∃ e ∈ inner.active, inner.watermark = e.2 := by
  unfold Inner.watermark
  rcases hmin : (inner.active.map Prod.snd).min? with _ | w
  · refine Or.inl ?_
    rw [Option.getD_none]
    rcases hc : inner.commitTs.checkedAdd 1 with _ | ts
    · have hlast : ¬ ∃ ts, inner.commitTs.checkedAdd 1 = some ts := by simp [hc]
      have : ¬ inner.commitTs.val + 1 < 2 ^ 64 := fun hlt =>
        hlast ⟨⟨_, hlt⟩, U64.checkedAdd_eq_some.2 rfl⟩
      rw [Option.getD_none]
      exact (lt_of_lt_of_le (Fin.isLt _) (not_lt.1 this)).le
    · rw [Option.getD_some, U64.checkedAdd_eq_some.1 hc]
  · refine Or.inr ?_
    obtain ⟨e, he, rfl⟩ := List.mem_map.1 (List.min?_mem hmin)
    exact ⟨e, he, rfl⟩

theorem watermark_le_active (inner : Inner) {e : U64 × U64} (he : e ∈ inner.active) : inner.watermark ≤ e.2 := by
  unfold Inner.watermark
  rcases hmin : (inner.active.map Prod.snd).min? with _ | w
  · simp only [List.min?_eq_none_iff, List.map_eq_nil_iff] at hmin
    rw [hmin] at he
    cases he
  · exact (List.min?_eq_some_iff.1 hmin).2 e.2 (List.mem_map_of_mem he)

/-- **A collection.** -/
theorem Memory.gc (hm : Memory inner txns r commits) (hi : ReplayInv r commits) :
    Memory inner.gc.2 txns r commits := by
  have hc : inner.commitTs.val = commits.length := by rw [hm.commitTs]; exact hi.commitTs
  refine ⟨?_, hm.commitTs, hm.nextTxn, fun h t ht => ?_, hm.distinct⟩
  · obtain ⟨low, hreads, hlow, hact⟩ := hm.reads
    refine ⟨_, hreads.retainVersions inner.watermark, ?_, fun e he => ?_⟩
    · rcases watermark_le inner with hw | ⟨e, he, hw⟩
      · omega
      · have := hact e he
        rw [hw]
        omega
    · have h1 := hact e he
      have h2 := Fin.le_def.1 (watermark_le_active inner he)
      omega
  · have ho := hm.opened h t ht
    exact ⟨ho.unfinished, ho.active, ho.begun, ho.pending⟩

end Memory

end Mvcc

end NutDb
