/-
  The transactional store on a log that fails.

  An append may fail, and then writes nothing; a sync may fail behind a record
  that is written.  The call returns the error and the process goes on.  The
  calls below are those of `Mvcc/Store.lean` with these errors; without errors
  they are the same (`runOr_sound`).

  A commit whose sync fails leaves its record in the log, and the next commit
  takes the same timestamp, which recovery rejects.  `recovers_iff` says that
  this is the only way to a log that cannot be opened.
-/
import NutDb.Mvcc.Runs

namespace NutDb

open Lib

namespace Mvcc

/-! ## Calls -/

/-- The operations on the log that fail in a call, with their errors. -/
structure LogFaults where
  append : Option IoError := none
  sync : Option IoError := none
  deriving DecidableEq, Repr

/-- `wal.append(&record.encode()?)?`, which may fail. -/
def appendRecordOr (f : LogFaults) (record : TxnRecord) : TxnRes (List FileOp) := do
  let ops ← appendRecord record
  match f.append with
  | some e => .error (.io (.io e))
  | none => return ops

/-- `MvccStore::begin`. -/
def Inner.beginOr (f : LogFaults) (inner : Inner) : List FileOp × TxnRes Transaction × Inner :=
  match inner.nextTxn.checkedAdd 1 with
  | none => ([], liftIo (invalid "mvcc: transaction id exhausted"), inner)
  | some next =>
    let id := inner.nextTxn
    let snapshot := inner.commitTs
    match appendRecordOr f (.begin id snapshot) with
    | .error e => ([], .error e, { inner with nextTxn := next })
    | .ok ops =>
      match f.sync with
      | some e => (ops, .error (.io (.io e)), { inner with nextTxn := next })
      | none => (ops ++ [.sync], .ok { id := id, snapshot := snapshot },
          { inner with nextTxn := next, active := insertEntry id snapshot inner.active })

namespace Transaction

/-- The body of `set` and `delete`. -/
def writeOr (f : LogFaults) (t : Transaction) (record : TxnRecord) (key : String)
    (value : Option String) : List FileOp × TxnRes Unit × Transaction :=
  match t.ensureOpen with
  | .error e => ([], .error e, t)
  | .ok () =>
    match appendRecordOr f record with
    | .error e => ([], .error e, t)
    | .ok ops => (ops, .ok (), { t with writes := insertEntry key value t.writes })

/-- The end of a transaction without effect. -/
def finishAbortedOr (f : LogFaults) (t : Transaction) (inner : Inner) :
    List FileOp × TxnRes Unit × Inner × Transaction :=
  match appendRecordOr f (.abort t.id) with
  | .error e => ([], .error e, inner, t)
  | .ok ops =>
    match f.sync with
    | some e => (ops, .error (.io (.io e)), inner, t)
    | none => (ops ++ [.sync], .ok (), { inner with active := eraseKey t.id inner.active },
        { t with finished := true })

/-- `Transaction::commit`, before the drop. -/
def commitOr (f : LogFaults) (t : Transaction) (inner : Inner) :
    List FileOp × TxnRes U64 × Inner × Transaction :=
  match t.ensureOpen with
  | .error e => ([], .error e, inner, t)
  | .ok () =>
    match t.writes.find? fun w => decide (latestChange inner.versions w.1 > t.snapshot) with
    | some w =>
      match t.finishAbortedOr f inner with
      | (ops, .error e, inner, t) => (ops, .error e, inner, t)
      | (ops, .ok (), inner, t) => (ops, .error (.conflict w.1), inner, t)
    | none =>
      match inner.commitTs.checkedAdd 1 with
      | none => ([], liftIo (invalid "mvcc: commit timestamp exhausted"), inner, t)
      | some timestamp =>
        match appendRecordOr f (.commit t.id timestamp) with
        | .error e => ([], .error e, inner, t)
        | .ok ops =>
          match f.sync with
          | some e => (ops, .error (.io (.io e)), inner, t)
          | none => (ops ++ [.sync], .ok timestamp,
            { inner with
              versions := applyVersions inner.versions t.writes timestamp
              commitTs := timestamp
              active := eraseKey t.id inner.active },
            { t with writes := [], finished := true })

/-- `Transaction::abort`, before the drop. -/
def abortOr (f : LogFaults) (t : Transaction) (inner : Inner) :
    List FileOp × TxnRes Unit × Inner × Transaction :=
  match t.ensureOpen with
  | .error e => ([], .error e, inner, t)
  | .ok () => t.finishAbortedOr f inner

end Transaction

/-- What a call does on a log that may fail. -/
def Call.runOr (f : LogFaults) (t : Transaction) (inner : Inner) : Call → Outcome
  | .get key => ⟨[], (t.get inner key).map .value, inner, some t⟩
  | .scanPrefix pre => ⟨[], (t.scanPrefix inner pre).map .rows, inner, some t⟩
  | .set key value =>
    let (ops, result, t) := t.writeOr f (.set t.id key value) key (some value)
    ⟨ops, result.map fun _ => .unit, inner, some t⟩
  | .delete key =>
    let (ops, result, t) := t.writeOr f (.delete t.id key) key none
    ⟨ops, result.map fun _ => .unit, inner, some t⟩
  | .commit =>
    let (ops, result, inner, t) := t.commitOr f inner
    ⟨ops, result.map .timestamp, t.drop inner, none⟩
  | .abort =>
    let (ops, result, inner, t) := t.abortOr f inner
    ⟨ops, result.map fun _ => .unit, t.drop inner, none⟩
  | .drop => ⟨[], .ok .unit, t.drop inner, none⟩

section Sound
variable {t : Transaction} {inner : Inner}

theorem appendRecordOr_sound (record : TxnRecord) : appendRecordOr {} record = appendRecord record := by
  unfold appendRecordOr
  cases appendRecord record <;> rfl

theorem beginOr_sound (inner : Inner) : inner.beginOr {} = inner.begin := by
  unfold Inner.beginOr
  simp only [appendRecordOr_sound]
  rfl

theorem finishAbortedOr_sound (t : Transaction) (inner : Inner) : t.finishAbortedOr {} inner =
    ([.append (Wal.frame (TxnRecord.abort t.id).payload), .sync], .ok (),
      { inner with active := eraseKey t.id inner.active }, { t with finished := true }) := by
  simp only [Transaction.finishAbortedOr, appendRecordOr_sound,
    appendRecord_of_loggable (TxnRecord.loggable_abort t.id)]
  rfl

theorem writeOr_sound (t : Transaction) (record : TxnRecord) (key : String) (value : Option String) :
    t.writeOr {} record key value = t.write record key value := by
  unfold Transaction.writeOr
  simp only [appendRecordOr_sound]
  rfl

theorem commitOr_sound (t : Transaction) (inner : Inner) : t.commitOr {} inner = t.commit inner := by
  unfold Transaction.commitOr Transaction.commit
  cases t.ensureOpen with
  | error e => rfl
  | ok u =>
    cases t.writes.find? fun w => decide (latestChange inner.versions w.1 > t.snapshot) with
    | some w => simp only [finishAbortedOr_sound, finishAborted_eq]
    | none =>
      cases inner.commitTs.checkedAdd 1 with
      | none => rfl
      | some timestamp =>
        have hrecord := appendRecordOr_sound (.commit t.id timestamp)
        cases happ : appendRecord (.commit t.id timestamp) <;> simp only [hrecord, happ]

theorem abortOr_sound (t : Transaction) (inner : Inner) : t.abortOr {} inner = t.abort inner := by
  unfold Transaction.abortOr Transaction.abort
  cases t.ensureOpen with
  | error e => rfl
  | ok u => simp only [finishAbortedOr_sound, finishAborted_eq]

/-- **Without errors** the calls are those of the store. -/
theorem runOr_sound (t : Transaction) (inner : Inner) (call : Call) :
    call.runOr {} t inner = call.run t inner := by
  cases call with
  | get key => rfl
  | scanPrefix pre => rfl
  | set key value => simp only [Call.runOr, Call.run, writeOr_sound, Transaction.set]
  | delete key => simp only [Call.runOr, Call.run, writeOr_sound, Transaction.delete]
  | commit => simp only [Call.runOr, Call.run, commitOr_sound]
  | abort => simp only [Call.runOr, Call.run, abortOr_sound]
  | drop => rfl

end Sound

/-! ## The system -/

/-- The check of `commit`. -/
def Transaction.conflicts (t : Transaction) (inner : Inner) : Bool :=
  t.writes.any fun w => decide (latestChange inner.versions w.1 > t.snapshot)

/-- What happens in a step. -/
inductive FaultLabel where
  | opened
  | closed
  | began (handle : ℕ) (f : LogFaults) (id : U64)
  | beginFailed (f : LogFaults)
  | called (handle : ℕ) (call : Call) (f : LogFaults) (result : TxnRes Answer)
  | gc (report : GcReport)

/-- The steps of the store on a log that fails.  The process does not crash, but it may end and
    the store be opened again. -/
inductive FaultStep : System → FaultLabel → System → Prop
  | opened {d ops inner} : openStore d = (ops, .ok inner) →
      FaultStep ⟨d, none, noTxns⟩ .opened ⟨d.runOps ops, some inner, noTxns⟩
  | closed {d inner txns} : FaultStep ⟨d, some inner, txns⟩ .closed ⟨d, none, noTxns⟩
  | began {d inner txns ops t inner' h f} : inner.beginOr f = (ops, .ok t, inner') → txns h = none →
      FaultStep ⟨d, some inner, txns⟩ (.began h f t.id)
        ⟨d.runOps (onLog ops), some inner', Function.update txns h (some t)⟩
  | beginFailed {d inner txns ops e inner' f} : inner.beginOr f = (ops, .error e, inner') →
      FaultStep ⟨d, some inner, txns⟩ (.beginFailed f) ⟨d.runOps (onLog ops), some inner', txns⟩
  | called {d inner txns h t} (call : Call) (f : LogFaults) : txns h = some t →
      FaultStep ⟨d, some inner, txns⟩ (.called h call f (call.runOr f t inner).result)
        ⟨d.runOps (onLog (call.runOr f t inner).ops), some (call.runOr f t inner).inner,
          Function.update txns h (call.runOr f t inner).txn⟩
  | gc {d inner txns} : FaultStep ⟨d, some inner, txns⟩ (.gc inner.gc.1) ⟨d, some inner.gc.2, txns⟩

/-- The transaction has no conflict, there is a timestamp left, and the append does not fail. -/
def Commits (f : LogFaults) (t : Transaction) (inner : Inner) : Prop :=
  t.conflicts inner = false ∧ inner.commitTs.val + 1 < 2 ^ 64 ∧ f.append = none

/-- The step writes the record of a commit. -/
def LogsCommit (sys : System) : FaultLabel → Prop
  | .called h .commit f _ => ∃ inner t, sys.store = some inner ∧ sys.txns h = some t ∧ Commits f t inner
  | _ => False

/-- The sync of the step fails, if there is one. -/
def FaultLabel.SyncFails : FaultLabel → Prop
  | .called _ _ f _ => f.sync ≠ none
  | _ => False

/-- Since the store was opened, the sync of a commit has failed behind its record. -/
def Lost : List (System × FaultLabel) → Prop
  | [] => False
  | (sys, l) :: steps => l ≠ .opened ∧ ((LogsCommit sys l ∧ l.SyncFails) ∨ Lost steps)

/-- No commit writes its record after one whose sync has failed, until the store is opened again. -/
def Careful : List (System × FaultLabel) → Prop
  | [] => True
  | (sys, l) :: steps => (LogsCommit sys l → ¬ Lost steps) ∧ Careful steps

/-- The commits that returned, with their timestamps and write sets. -/
def acked : List (System × FaultLabel) → List (U64 × Writes)
  | [] => []
  | (sys, .called h .commit _ (.ok (.timestamp ts))) :: steps =>
    (sys.txns h).toList.map (fun t => (ts, t.writes)) ++ acked steps
  | _ :: steps => acked steps

/-- The store can be opened, and it then has every commit that returned: at its timestamp the keys
    that it wrote have the values that it wrote, and the others those of the timestamp before. -/
def Recovers (steps : List (System × FaultLabel)) (d : Disk Unit) : Prop :=
  ∃ ops inner, openStore d = (ops, .ok inner) ∧ ∀ e ∈ acked steps, e.1 ≤ inner.commitTs ∧
    ∃ before : U64, before.val + 1 = e.1.val ∧
      ∀ key, inner.getAt key e.1 = (e.2.lookup key).getD (inner.getAt key before)

/-! ## What calls do -/

/-- The operations of writing one record. -/
def Writing (record : TxnRecord) (ops : List FileOp) : Prop :=
  ops = [.append (Wal.frame record.payload)] ∨ ops = [.append (Wal.frame record.payload), .sync]

/-- The ways in which a call of an unfinished transaction can go. -/
inductive FaultEffect (f : LogFaults) (t : Transaction) (inner : Inner) : Call → Outcome → Prop
  | none {call result} : call ≠ .commit → FaultEffect f t inner call ⟨[], result, inner, some t⟩
  | wrote {call key value result} : call ≠ .commit → (writeRecord t.id key value).Loggable →
      FaultEffect f t inner call ⟨[.append (Wal.frame (writeRecord t.id key value).payload)], result,
        inner, some { t with writes := insertEntry key value t.writes }⟩
  | ended {call result ops} : (call = .commit → ¬ Commits f t inner) → NoCommit call result →
      (ops = [] ∨ Writing (.abort t.id) ops) →
      FaultEffect f t inner call ⟨ops, result, { inner with active := eraseKey t.id inner.active }, none⟩
  | lost {ts : U64} {e} : Commits f t inner → f.sync ≠ none → ts.val = inner.commitTs.val + 1 →
      FaultEffect f t inner .commit ⟨[.append (Wal.frame (TxnRecord.commit t.id ts).payload)], .error e,
        { inner with active := eraseKey t.id inner.active }, none⟩
  | committed {ts : U64} : Commits f t inner → f.sync = none → ts.val = inner.commitTs.val + 1 →
      FaultEffect f t inner .commit
        ⟨[.append (Wal.frame (TxnRecord.commit t.id ts).payload), .sync], .ok (.timestamp ts),
          { inner with
            versions := applyVersions inner.versions t.writes ts
            commitTs := ts
            active := eraseKey t.id inner.active }, none⟩

section Effect
variable {f : LogFaults} {t : Transaction} {inner : Inner}

theorem appendRecordOr_of_loggable {record : TxnRecord} (h : record.Loggable) :
    (f.append = none ∧ appendRecordOr f record = .ok [.append (Wal.frame record.payload)]) ∨
    ∃ e, f.append = some e ∧ appendRecordOr f record = .error (.io (.io e)) := by
  unfold appendRecordOr
  rw [appendRecord_of_loggable h]
  rcases f.append with _ | e
  · exact Or.inl ⟨rfl, rfl⟩
  · exact Or.inr ⟨e, rfl, rfl⟩

theorem appendRecordOr_cases (f : LogFaults) (record : TxnRecord) :
    (record.Loggable ∧ appendRecordOr f record = .ok [.append (Wal.frame record.payload)]) ∨
    ∃ e, appendRecordOr f record = .error e := by
  by_cases h : record.Loggable
  · rcases appendRecordOr_of_loggable (f := f) h with ⟨-, ha⟩ | ⟨e, -, ha⟩
    · exact Or.inl ⟨h, ha⟩
    · exact Or.inr ⟨_, ha⟩
  · obtain ⟨hl, -⟩ | ⟨e, he⟩ := appendRecord_cases record
    · exact absurd hl h
    · exact Or.inr ⟨e, by unfold appendRecordOr; rw [he]; rfl⟩

theorem writeOr_effect {call : Call} (key : String) (value : Option String) (hne : call ≠ .commit)
    (ht : t.finished = false) (hrun : call.runOr f t inner =
      ⟨(t.writeOr f (writeRecord t.id key value) key value).1,
        (t.writeOr f (writeRecord t.id key value) key value).2.1.map fun _ => .unit, inner,
        some (t.writeOr f (writeRecord t.id key value) key value).2.2⟩) :
    FaultEffect f t inner call (call.runOr f t inner) := by
  rw [hrun]
  rcases appendRecordOr_cases f (writeRecord t.id key value) with ⟨hl, ha⟩ | ⟨e, ha⟩
  · simp only [Transaction.writeOr, ensureOpen_ok ht, ha]
    exact .wrote hne hl
  · simp only [Transaction.writeOr, ensureOpen_ok ht, ha]
    exact .none hne

/-- The end of a transaction without effect, with its drop. -/
theorem finishAbortedOr_cases (f : LogFaults) (t : Transaction) (inner : Inner)
    (ht : t.finished = false) : ∃ ops r inner' t', t.finishAbortedOr f inner = (ops, r, inner', t') ∧
      (ops = [] ∨ Writing (.abort t.id) ops) ∧
      t'.drop inner' = { inner with active := eraseKey t.id inner.active } := by
  rcases appendRecordOr_of_loggable (f := f) (TxnRecord.loggable_abort t.id) with ⟨-, ha⟩ | ⟨e, -, ha⟩
  · rcases hs : f.sync with _ | e
    · refine ⟨_, _, _, _, by simp only [Transaction.finishAbortedOr, ha, hs]; rfl, Or.inr (Or.inr rfl), ?_⟩
      simp [Transaction.drop]
    · refine ⟨_, _, _, _, by simp only [Transaction.finishAbortedOr, ha, hs]; rfl, Or.inr (Or.inl rfl), ?_⟩
      simp [Transaction.drop, ht]
  · refine ⟨_, _, _, _, by simp only [Transaction.finishAbortedOr, ha]; rfl, Or.inl rfl, ?_⟩
    simp [Transaction.drop, ht]

/-- **Every call** goes one of these ways. -/
theorem runOr_effect (f : LogFaults) (inner : Inner) (ht : t.finished = false) (call : Call) :
    FaultEffect f t inner call (call.runOr f t inner) := by
  cases call with
  | get key => exact .none (by simp)
  | scanPrefix pre => exact .none (by simp)
  | set key value => exact writeOr_effect key (some value) (by simp) ht rfl
  | delete key => exact writeOr_effect key none (by simp) ht rfl
  | commit =>
    rcases hf : t.writes.find? fun w => decide (latestChange inner.versions w.1 > t.snapshot) with _ | w
    · have hno : t.conflicts inner = false := by
        rw [Transaction.conflicts, List.any_eq_false]
        exact List.find?_eq_none.1 hf
      rcases hts : inner.commitTs.checkedAdd 1 with _ | ts
      · simp only [Call.runOr, Transaction.commitOr, ensureOpen_ok ht, hf, hts, Transaction.drop, ht]
        refine .ended (fun _ hc => ?_) trivial (Or.inl rfl)
        have : inner.commitTs.checkedAdd 1 = some ⟨inner.commitTs.val + 1, hc.2.1⟩ :=
          U64.checkedAdd_eq_some.2 rfl
        rw [hts] at this
        cases this
      · have hval := U64.checkedAdd_eq_some.1 hts
        have hlt : inner.commitTs.val + 1 < 2 ^ 64 := by
          have := ts.isLt
          rw [hval] at this
          exact this
        rcases appendRecordOr_of_loggable (f := f) (TxnRecord.loggable_commit t.id ts) with
          ⟨happ, ha⟩ | ⟨e, happ, ha⟩
        · rcases hs : f.sync with _ | e
          · simp only [Call.runOr, Transaction.commitOr, ensureOpen_ok ht, hf, hts, ha, hs]
            exact .committed ⟨hno, hlt, happ⟩ hs hval
          · simp only [Call.runOr, Transaction.commitOr, ensureOpen_ok ht, hf, hts, ha, hs,
              Transaction.drop, ht]
            exact .lost ⟨hno, hlt, happ⟩ (by simp [hs]) hval
        · simp only [Call.runOr, Transaction.commitOr, ensureOpen_ok ht, hf, hts, ha,
            Transaction.drop, ht]
          refine .ended (fun _ hc => ?_) trivial (Or.inl rfl)
          have := hc.2.2
          rw [happ] at this
          cases this
    · have hyes : ¬ Commits f t inner := by
        rintro ⟨hno, -⟩
        rw [Transaction.conflicts, List.any_eq_false] at hno
        refine hno w (List.mem_of_find?_eq_some hf) ?_
        simpa using List.find?_some hf
      obtain ⟨ops, r, inner', t', hfin, hops, hdrop⟩ := finishAbortedOr_cases f t inner ht
      simp only [Call.runOr, Transaction.commitOr, ensureOpen_ok ht, hf, hfin]
      rcases r with e | u
      · simp only [hdrop]
        exact .ended (fun _ => hyes) trivial hops
      · simp only [hdrop]
        exact .ended (fun _ => hyes) trivial hops
  | abort =>
    obtain ⟨ops, r, inner', t', hfin, hops, hdrop⟩ := finishAbortedOr_cases f t inner ht
    simp only [Call.runOr, Transaction.abortOr, ensureOpen_ok ht, hfin, hdrop]
    exact .ended (by simp) trivial hops
  | drop =>
    simp only [Call.runOr, Transaction.drop, ht]
    exact .ended (by simp) trivial (Or.inl rfl)

/-- The ways in which `begin` can go. -/
theorem beginOr_cases (f : LogFaults) (inner : Inner) :
    (∃ e, inner.beginOr f = ([], .error e, inner)) ∨ ∃ next : U64, next.val = inner.nextTxn.val + 1 ∧
    ((∃ e ops, (ops = [] ∨ Writing (.begin inner.nextTxn inner.commitTs) ops) ∧
      inner.beginOr f = (ops, .error e, { inner with nextTxn := next })) ∨
    ∃ ops, Writing (.begin inner.nextTxn inner.commitTs) ops ∧ inner.beginOr f =
      (ops, .ok { id := inner.nextTxn, snapshot := inner.commitTs },
        { inner with nextTxn := next, active := insertEntry inner.nextTxn inner.commitTs inner.active })) := by
  rcases hn : inner.nextTxn.checkedAdd 1 with _ | next
  · exact Or.inl ⟨_, by simp only [Inner.beginOr, hn]; rfl⟩
  · refine Or.inr ⟨next, U64.checkedAdd_eq_some.1 hn, ?_⟩
    rcases appendRecordOr_of_loggable (f := f) (TxnRecord.loggable_begin inner.nextTxn inner.commitTs) with
      ⟨-, ha⟩ | ⟨e, -, ha⟩
    · rcases hs : f.sync with _ | e
      · exact Or.inr ⟨_, Or.inr rfl, by simp only [Inner.beginOr, hn, ha, hs]; rfl⟩
      · exact Or.inl ⟨_, _, Or.inr (Or.inl rfl), by simp only [Inner.beginOr, hn, ha, hs]; rfl⟩
    · exact Or.inl ⟨_, _, Or.inl rfl, by simp only [Inner.beginOr, hn, ha]; rfl⟩

end Effect

/-! ## The log -/

/-- The log consists of these records. -/
structure Intact (d : Disk Unit) (R : List TxnRecord) : Prop where
  loggable : ∀ record ∈ R, record.Loggable
  bytes : ((d ()).map File.bytes).getD [] = Wal.frames (R.map TxnRecord.payload)

section Log
variable {d : Disk Unit} {R : List TxnRecord} {record : TxnRecord} {ops : List FileOp} {g : File}

theorem Intact.replayPath (h : Intact d R) : Wal.replayPath ((d ()).map File.bytes) =
    ⟨R.map TxnRecord.payload, false, (Wal.frames (R.map TxnRecord.payload)).length⟩ := by
  have hfits : ∀ p ∈ R.map TxnRecord.payload, Wal.Fits p := by
    intro p hp
    obtain ⟨record, hrec, rfl⟩ := List.mem_map.1 hp
    exact (h.loggable record hrec).payload.2
  have hreplay := Wal.replay_eq hfits Wal.not_startsWithFrame_nil
  rw [List.append_nil] at hreplay
  have hbytes := h.bytes
  rcases hd : d () with _ | f
  · rw [hd, Option.map_none, Option.getD_none] at hbytes
    rw [← hbytes] at hreplay ⊢
    exact hreplay
  · rw [hd, Option.map_some, Option.getD_some] at hbytes
    rw [Option.map_some, Wal.replayPath, hbytes, hreplay]
    rfl

theorem runOps_onLog_some (hd : d () = some g) (ops : List FileOp) :
    ∃ g', d.runOps (onLog ops) () = some g' := by
  rw [runOps_onLog, hd]
  exact ⟨_, rfl⟩

theorem Intact.write (h : Intact d R) (hd : d () = some g) (hl : record.Loggable)
    (hops : Writing record ops) :
    Intact (d.runOps (onLog ops)) (R ++ [record]) := by
  have hbytes := h.bytes
  rw [hd, Option.map_some, Option.getD_some] at hbytes
  have hframes : Wal.frames ((R ++ [record]).map TxnRecord.payload) =
      g.bytes ++ Wal.frame record.payload := by
    rw [hbytes, List.map_append, Wal.frames_append]
    simp
  refine ⟨fun x hx => ?_, ?_⟩
  · rcases List.mem_append.1 hx with hx | hx
    · exact h.loggable x hx
    · rw [List.mem_singleton.1 hx]
      exact hl
  · rw [runOps_onLog, hd, hframes]
    rcases hops with rfl | rfl <;> rfl

/-- What the recovery loop does with one more record. -/
theorem replayPayloads_concat (hl : record.Loggable) :
    replayPayloads ((R ++ [record]).map TxnRecord.payload) =
      (replayPayloads (R.map TxnRecord.payload)).bind fun r => replayRecord r record := by
  unfold replayPayloads
  rw [List.map_append, List.foldlM_append]
  refine congrArg (Except.bind _) (funext fun r => ?_)
  simp only [List.map_cons, List.map_nil, List.foldlM_cons, List.foldlM_nil,
    TxnRecord.decode_encode hl.payload.1, Res.ok_bind]
  cases replayRecord r record <;> rfl

/-- A log on which the recovery loop fails cannot be opened. -/
theorem Intact.openStore_error {e : Fault} (h : Intact d R)
    (he : replayPayloads (R.map TxnRecord.payload) = .error e) : openStore d = ([], .error e) := by
  simp only [openStore, h.replayPath, he]

/-- A log on which it ends can be opened. -/
theorem Intact.openStore_ok {r : Replay} {commits : List Writes} (h : Intact d R) (hr : Replayed R r commits) :
    ∃ next : U64, next.val = r.maxTxn.val + 1 ∧
      openStore d = ([.create ()], .ok ⟨r.versions, [], next, r.commitTs⟩) := by
  obtain ⟨next, hnext⟩ : ∃ next, r.maxTxn.checkedAdd 1 = some next :=
    ⟨⟨r.maxTxn.val + 1, hr.inv.maxTxn⟩, U64.checkedAdd_eq_some.2 rfl⟩
  refine ⟨next, U64.checkedAdd_eq_some.1 hnext, ?_⟩
  simp only [openStore, h.replayPath, hr.replayPayloads, hnext]
  rfl

end Log

/-! ## The memory -/

/-- The buffer of every unfinished transaction is what its records in the log say. -/
structure Buffers (txns : ℕ → Option Transaction) (r : Replay) : Prop where
  begun : ∀ h t, txns h = some t → (r.begun.lookup t.id).isSome
  pending : ∀ h t, txns h = some t → r.pending.lookup t.id = some t.writes
  distinct : ∀ h h' t t', txns h = some t → txns h' = some t' → t.id = t'.id → h = h'

/-- The memory of the store, with the state of the recovery of its log. -/
structure Backed (inner : Inner) (txns : ℕ → Option Transaction) (r : Replay) (lost : Prop) : Prop where
  synced : ¬ lost → r.commitTs = inner.commitTs
  ahead : lost → r.commitTs.val = inner.commitTs.val + 1
  nextTxn : r.maxTxn < inner.nextTxn
  buffers : Buffers txns r

section Buffers
variable {txns : ℕ → Option Transaction} {r : Replay} {h : ℕ} {t : Transaction}

theorem buffers_none (r : Replay) : Buffers noTxns r :=
  ⟨fun _ _ ht => (nomatch ht), fun _ _ ht => (nomatch ht), fun _ _ _ _ ht => (nomatch ht)⟩

/-- The transactions behind the other handles keep their records. -/
theorem Buffers.finish (hb : Buffers txns r) (ht : txns h = some t) {r' : Replay}
    (hr : r' = r ∨ (r'.begun = eraseKey t.id r.begun ∧ r'.pending = eraseKey t.id r.pending)) :
    Buffers (Function.update txns h none) r' := by
  have hid : ∀ h' t', Function.update txns h none h' = some t' → t'.id ≠ t.id ∧ txns h' = some t' := by
    intro h' t' ht'
    obtain ⟨hne, ht'⟩ := update_none_eq_some.1 ht'
    exact ⟨fun heq => hne (hb.distinct h' h t' t ht' ht heq), ht'⟩
  refine ⟨fun h' t' ht' => ?_, fun h' t' ht' => ?_, fun h₁ h₂ t₁ t₂ e₁ e₂ => ?_⟩
  · obtain ⟨hne, ht'⟩ := hid h' t' ht'
    rcases hr with rfl | ⟨hr, -⟩
    · exact hb.begun h' t' ht'
    · rw [hr, lookup_eraseKey, if_neg hne]
      exact hb.begun h' t' ht'
  · obtain ⟨hne, ht'⟩ := hid h' t' ht'
    rcases hr with rfl | ⟨-, hr⟩
    · exact hb.pending h' t' ht'
    · rw [hr, lookup_eraseKey, if_neg hne]
      exact hb.pending h' t' ht'
  · exact hb.distinct h₁ h₂ t₁ t₂ (update_none_eq_some.1 e₁).2 (update_none_eq_some.1 e₂).2

theorem Buffers.write (hb : Buffers txns r) (ht : txns h = some t) (key : String) (value : Option String) :
    Buffers (Function.update txns h (some { t with writes := insertEntry key value t.writes }))
      (r.buffer t.id key value) := by
  have hid : ∀ h' t', h' ≠ h → txns h' = some t' → t'.id ≠ t.id := fun h' t' hne ht' heq =>
    hne (hb.distinct h' h t' t ht' ht heq)
  refine ⟨fun h' t' ht' => ?_, fun h' t' ht' => ?_, fun h₁ h₂ t₁ t₂ e₁ e₂ heq => ?_⟩
  · rw [Function.update_apply] at ht'
    split_ifs at ht'
    · cases ht'
      exact hb.begun h t ht
    · exact hb.begun h' t' ht'
  · rw [Function.update_apply] at ht'
    split_ifs at ht' with hh
    · cases ht'
      simp [Replay.buffer, lookup_insertEntry, hb.pending h t ht]
    · simp only [Replay.buffer, lookup_insertEntry, if_neg (hid h' t' hh ht')]
      exact hb.pending h' t' ht'
  · rw [Function.update_apply] at e₁ e₂
    split_ifs at e₁ e₂ with c₁ c₂ c₂
    · rw [c₁, c₂]
    · cases e₁
      exact absurd heq.symm (hid h₂ t₂ c₂ e₂)
    · cases e₂
      exact absurd heq (hid h₁ t₁ c₁ e₁)
    · exact hb.distinct h₁ h₂ t₁ t₂ e₁ e₂ heq

theorem Buffers.insert (hb : Buffers txns r) {id : U64} (hid : ∀ h t, txns h = some t → t.id ≠ id)
    {r' : Replay} {snapshot : U64} {w : Writes} (hbegun : r'.begun = insertEntry id snapshot r.begun)
    (hpend : r'.pending = insertEntry id w r.pending) : Buffers txns r' := by
  refine ⟨fun h' t' ht' => ?_, fun h' t' ht' => ?_, hb.distinct⟩
  · rw [hbegun, lookup_insertEntry, if_neg (hid h' t' ht')]
    exact hb.begun h' t' ht'
  · rw [hpend, lookup_insertEntry, if_neg (hid h' t' ht')]
    exact hb.pending h' t' ht'

/-- A transaction that begins. -/
theorem Buffers.begin (hb : Buffers txns r) (hid : ∀ h t', txns h = some t' → t'.id ≠ t.id)
    {r' : Replay} {snapshot : U64} (hbegun : r'.begun = insertEntry t.id snapshot r.begun)
    (hpend : r'.pending = insertEntry t.id t.writes r.pending) :
    Buffers (Function.update txns h (some t)) r' := by
  have hold := hb.insert hid hbegun hpend
  refine ⟨fun h' t' ht' => ?_, fun h' t' ht' => ?_, fun h₁ h₂ t₁ t₂ e₁ e₂ heq => ?_⟩
  · rw [Function.update_apply] at ht'
    split_ifs at ht'
    · cases ht'
      rw [hbegun, lookup_insertEntry, if_pos rfl]
      rfl
    · exact hold.begun h' t' ht'
  · rw [Function.update_apply] at ht'
    split_ifs at ht'
    · cases ht'
      rw [hpend, lookup_insertEntry, if_pos rfl]
    · exact hold.pending h' t' ht'
  · rw [Function.update_apply] at e₁ e₂
    split_ifs at e₁ e₂ with c₁ c₂ c₂
    · rw [c₁, c₂]
    · cases e₁
      exact absurd heq.symm (hid h₂ t₂ e₂)
    · cases e₂
      exact absurd heq (hid h₁ t₁ e₁)
    · exact hb.distinct h₁ h₂ t₁ t₂ e₁ e₂ heq

end Buffers

/-! ## Runs -/

/-- What the log has of the commits that returned. -/
def Holds (steps : List (System × FaultLabel)) (commits : List Writes) : Prop :=
  ∀ e ∈ acked steps, 0 < e.1.val ∧ commits[e.1.val - 1]? = some e.2

/-- What is known of a state after a run: as long as no commit has followed a lost one, the log is
    recovered and the memory agrees with it; afterwards the recovery fails. -/
structure FaultInv (steps : List (System × FaultLabel)) (sys : System) : Prop where
  file : ∀ inner, sys.store = some inner → ∃ g, sys.disk () = some g
  unfinished : ∀ h t, sys.txns h = some t → t.finished = false
  good : Careful steps → ∃ R r commits, Intact sys.disk R ∧ Replayed R r commits ∧ Holds steps commits ∧
    ∀ inner, sys.store = some inner → Backed inner sys.txns r (Lost steps)
  bad : ¬ Careful steps → ∃ R e, Intact sys.disk R ∧ replayPayloads (R.map TxnRecord.payload) = .error e

section Runs
variable {steps : List (System × FaultLabel)} {sys sys' : System} {l : FaultLabel} {commits : List Writes}

theorem Holds.append (h : Holds steps commits) (more : List Writes) : Holds steps (commits ++ more) := by
  intro e he
  obtain ⟨h1, h2⟩ := h e he
  refine ⟨h1, ?_⟩
  rw [List.getElem?_append_left (List.getElem?_eq_some_iff.1 h2).1]
  exact h2

/-- A commit that returned has a timestamp of its own in the history. -/
theorem Holds.recovers {d : Disk Unit} {R : List TxnRecord} {r : Replay} (h : Holds steps commits)
    (hi : Intact d R) (hr : Replayed R r commits) : Recovers steps d := by
  obtain ⟨next, -, hopen⟩ := hi.openStore_ok hr
  refine ⟨_, _, hopen, fun e he => ?_⟩
  obtain ⟨hpos, hget⟩ := h e he
  have hlt := (List.getElem?_eq_some_iff.1 hget).1
  have hts : r.commitTs.val = commits.length := hr.inv.commitTs
  obtain ⟨before, hbefore⟩ : ∃ before : U64, before.val + 1 = e.1.val :=
    ⟨⟨e.1.val - 1, by have := e.1.isLt; omega⟩, by simp only; omega⟩
  refine ⟨Fin.le_def.2 (by simp only; omega), before, hbefore, fun key => ?_⟩
  have hshow := fun (s : U64) (hs : s.val ≤ commits.length) =>
    hr.inv.reads.visibleValue (Nat.zero_le _) hs key
  have htake : commits.take e.1.val = commits.take before.val ++ [e.2] := by
    rw [← hbefore, List.take_add_one, show before.val = e.1.val - 1 by omega, hget]
    rfl
  show visibleValue r.versions key e.1 = (e.2.lookup key).getD (visibleValue r.versions key before)
  rw [hshow e.1 (by omega), hshow before (by omega), htake, valueAfter_concat]

theorem initial_faultInv : FaultInv [] initial := by
  refine ⟨fun _ h => (nomatch h), fun _ _ h => (nomatch h), fun _ => ?_, fun h => absurd trivial h⟩
  refine ⟨[], {}, [], ⟨by simp, rfl⟩, .nil, ?_, fun _ h => (nomatch h)⟩
  intro e he
  cases he

/-- A step that writes no record of a commit is as careful as the steps before it. -/
theorem careful_cons (hl : ¬ LogsCommit sys l) : Careful ((sys, l) :: steps) ↔ Careful steps := by
  simp [Careful, hl]

theorem careless_cons (hl : LogsCommit sys l) (hlost : Lost steps) : ¬ Careful ((sys, l) :: steps) :=
  fun hc => hc.1 hl hlost

theorem lost_cons (hl : ¬ LogsCommit sys l) (hne : l ≠ .opened) : Lost ((sys, l) :: steps) ↔ Lost steps := by
  simp [Lost, hl, hne]

/-- Once the recovery fails it goes on failing. -/
theorem bad_write {d : Disk Unit} {g : File} {record : TxnRecord} {ops : List FileOp}
    (hb : ∃ R e, Intact d R ∧ replayPayloads (R.map TxnRecord.payload) = .error e) (hd : d () = some g)
    (hl : record.Loggable) (hops : Writing record ops) :
    ∃ R e, Intact (d.runOps (onLog ops)) R ∧ replayPayloads (R.map TxnRecord.payload) = .error e := by
  obtain ⟨R, e, hi, he⟩ := hb
  refine ⟨R ++ [record], e, hi.write hd hl hops, ?_⟩
  rw [replayPayloads_concat hl, he]
  rfl

/-- **A step that writes a record** which is not that of a commit. -/
theorem FaultInv.written {d : Disk Unit} {inner inner' : Inner} {txns txns' : ℕ → Option Transaction}
    {record : TxnRecord} {ops : List FileOp} {l : FaultLabel} (h : FaultInv steps ⟨d, some inner, txns⟩)
    (hl : ¬ LogsCommit ⟨d, some inner, txns⟩ l) (hne : l ≠ .opened)
    (hacked : ∀ sys, acked ((sys, l) :: steps) = acked steps) (hlog : record.Loggable)
    (hops : Writing record ops) (hfin : ∀ h t, txns' h = some t → t.finished = false)
    (hrec : ∀ r commits, ReplayInv r commits → Backed inner txns r (Lost steps) →
      Proper r commits record ∧ grow r commits record = commits ∧
      ∃ r', replayRecord r record = .ok r' ∧ Backed inner' txns' r' (Lost steps)) :
    FaultInv ((⟨d, some inner, txns⟩, l) :: steps) ⟨d.runOps (onLog ops), some inner', txns'⟩ := by
  obtain ⟨g, hg⟩ := h.file inner rfl
  refine ⟨fun _ _ => runOps_onLog_some hg ops, hfin, fun hc => ?_, fun hc => ?_⟩
  · obtain ⟨R, r, commits, hi, hr, hh, hb⟩ := h.good ((careful_cons hl).1 hc)
    obtain ⟨hp, hgrow, r', hstep, hb'⟩ := hrec r commits hr.inv (hb inner rfl)
    have hr' := hr.snoc hlog hp hstep
    rw [hgrow] at hr'
    refine ⟨_, r', commits, hi.write hg hlog hops, hr', ?_, ?_⟩
    · intro e he
      rw [hacked] at he
      exact hh e he
    · intro inner'' hs
      cases hs
      rw [show Lost ((⟨d, some inner, txns⟩, l) :: steps) = Lost steps from propext (lost_cons hl hne)]
      exact hb'
  · exact bad_write (h.bad fun hc' => hc ((careful_cons hl).2 hc')) hg hlog hops

/-- The record of a transaction that begins, whether `begin` returns it or not. -/
theorem Backed.begin {inner inner' : Inner} {txns txns' : ℕ → Option Transaction} {r : Replay}
    {lost : Prop} (hb : Backed inner txns r lost) (hi : ReplayInv r commits)
    (hnext : inner'.nextTxn.val = inner.nextTxn.val + 1) (hts : inner'.commitTs = inner.commitTs)
    (htxns : txns' = txns ∨ ∃ h, txns' =
      Function.update txns h (some { id := inner.nextTxn, snapshot := inner.commitTs })) :
    Proper r commits (.begin inner.nextTxn inner.commitTs) ∧
    grow r commits (.begin inner.nextTxn inner.commitTs) = commits ∧
    ∃ r', replayRecord r (.begin inner.nextTxn inner.commitTs) = .ok r' ∧ Backed inner' txns' r' lost := by
  have hlt := Fin.lt_def.1 hb.nextTxn
  -- the id is new
  have hfresh : ∀ txn, txn ≤ r.maxTxn → txn ≠ inner.nextTxn := fun txn hle heq =>
    absurd (lt_of_le_of_lt hle hb.nextTxn) (heq ▸ lt_irrefl _)
  have hids : ∀ h' t', txns h' = some t' → t'.id ≠ inner.nextTxn := fun h' t' ht' =>
    hfresh _ (hi.begun _ (hb.buffers.begun h' t' ht'))
  have hpend : (r.pending.lookup inner.nextTxn).getD [] = [] := by
    rcases hp : r.pending.lookup inner.nextTxn with _ | w
    · rfl
    · exact absurd rfl (hfresh _ (hi.pending _ _ hp).2)
  refine ⟨⟨hlt, hnext ▸ inner'.nextTxn.isLt⟩, rfl, _, replayRecord_begin r _ _, ?_⟩
  refine ⟨fun hlost => hts ▸ hb.synced hlost, fun hlost => hts ▸ hb.ahead hlost, ?_, ?_⟩
  · exact max_lt (Fin.lt_def.2 (by omega)) (Fin.lt_def.2 (by omega))
  · rcases htxns with rfl | ⟨h₀, rfl⟩
    · exact hb.buffers.insert hids rfl rfl
    · refine hb.buffers.begin hids rfl ?_
      simp only [hpend]

/-- **A step that leaves the log alone.** -/
theorem FaultInv.idle {d : Disk Unit} {inner inner' : Inner} {txns txns' : ℕ → Option Transaction}
    {l : FaultLabel} (h : FaultInv steps ⟨d, some inner, txns⟩)
    (hl : ¬ LogsCommit ⟨d, some inner, txns⟩ l) (hne : l ≠ .opened)
    (hacked : ∀ sys, acked ((sys, l) :: steps) = acked steps)
    (hnext : inner.nextTxn ≤ inner'.nextTxn) (hts : inner'.commitTs = inner.commitTs)
    (htxns : txns' = txns ∨ ∃ h, (txns h).isSome ∧ txns' = Function.update txns h none) :
    FaultInv ((⟨d, some inner, txns⟩, l) :: steps) ⟨d, some inner', txns'⟩ := by
  refine ⟨fun _ _ => h.file inner rfl, fun h' t ht => ?_, fun hc => ?_, fun hc => ?_⟩
  · rcases htxns with rfl | ⟨h₀, -, rfl⟩
    · exact h.unfinished h' t ht
    · exact h.unfinished h' t (update_none_eq_some.1 ht).2
  · obtain ⟨R, r, commits, hi, hr, hh, hb⟩ := h.good ((careful_cons hl).1 hc)
    have hb := hb inner rfl
    refine ⟨R, r, commits, hi, hr, ?_, ?_⟩
    · intro e he
      rw [hacked] at he
      exact hh e he
    · intro inner'' hs
      cases hs
      rw [show Lost ((⟨d, some inner, txns⟩, l) :: steps) = Lost steps from propext (lost_cons hl hne)]
      refine ⟨fun hlost => hts ▸ hb.synced hlost, fun hlost => hts ▸ hb.ahead hlost,
        lt_of_lt_of_le hb.nextTxn hnext, ?_⟩
      rcases htxns with rfl | ⟨h₀, hsome, rfl⟩
      · exact hb.buffers
      · obtain ⟨t, ht⟩ := Option.isSome_iff_exists.1 hsome
        exact hb.buffers.finish ht (Or.inl rfl)
  · exact h.bad fun hc' => hc ((careful_cons hl).2 hc')

/-- **The record of a commit**: it is recovered if no commit was lost before, and spoils the log
    otherwise. -/
theorem FaultInv.commit {d : Disk Unit} {inner inner' : Inner} {txns : ℕ → Option Transaction} {h : ℕ}
    {t : Transaction} {f : LogFaults} {ts : U64} {result : TxnRes Answer} {ops : List FileOp}
    (hinv : FaultInv steps ⟨d, some inner, txns⟩) (ht : txns h = some t) (hc : Commits f t inner)
    (hts : ts.val = inner.commitTs.val + 1) (hops : Writing (.commit t.id ts) ops)
    (hnext : inner'.nextTxn = inner.nextTxn)
    (hsync : (f.sync ≠ none ∧ inner'.commitTs = inner.commitTs) ∨ (f.sync = none ∧ inner'.commitTs = ts))
    (hacked : ∀ e ∈ acked ((⟨d, some inner, txns⟩, .called h .commit f result) :: steps),
      e = (ts, t.writes) ∨ e ∈ acked steps) :
    FaultInv ((⟨d, some inner, txns⟩, .called h .commit f result) :: steps)
      ⟨d.runOps (onLog ops), some inner', Function.update txns h none⟩ := by
  obtain ⟨g, hg⟩ := hinv.file inner rfl
  have hlog := TxnRecord.loggable_commit t.id ts
  have hl : LogsCommit ⟨d, some inner, txns⟩ (.called h .commit f result) := ⟨inner, t, rfl, ht, hc⟩
  refine ⟨fun _ _ => runOps_onLog_some hg ops, fun h' t' ht' => ?_, fun hcare => ?_, fun hcare => ?_⟩
  · exact hinv.unfinished h' t' (update_none_eq_some.1 ht').2
  · obtain ⟨hlost, hcare⟩ := hcare
    obtain ⟨R, r, commits, hi, hr, hh, hb⟩ := hinv.good hcare
    have hb := hb inner rfl
    have hsame := hb.synced (hlost hl)
    have hlen : ts.val = commits.length + 1 := by rw [hts, ← hsame, hr.inv.commitTs]
    have hstep := replayRecord_commit (hb.buffers.begun h t ht) (by rw [hts, hsame])
    have hgrow : grow r commits (.commit t.id ts) = commits ++ [t.writes] := by
      rw [grow, hb.buffers.pending h t ht, Option.getD_some]
    have hr' := hr.snoc hlog hlen hstep
    rw [hgrow] at hr'
    refine ⟨_, _, _, hi.write hg hlog hops, hr', ?_, ?_⟩
    · intro e he
      rcases hacked e he with rfl | he
      · refine ⟨by simp only; omega, ?_⟩
        simp only [hlen, Nat.add_sub_cancel, List.getElem?_concat_length]
      · exact hh.append [t.writes] e he
    · intro inner'' hs
      cases hs
      have hnew : Lost ((⟨d, some inner, txns⟩, .called h .commit f result) :: steps) ↔ f.sync ≠ none := by
        simp only [Lost, ne_eq, reduceCtorEq, not_false_eq_true, true_and, hlost hl, or_false, hl]
        exact Iff.rfl
      rw [hnew]
      refine ⟨fun hs => ?_, fun hs => ?_, hnext ▸ hb.nextTxn, hb.buffers.finish ht (Or.inr ⟨rfl, rfl⟩)⟩
      · rcases hsync with ⟨hs', -⟩ | ⟨-, heq⟩
        · exact absurd hs' hs
        · exact heq.symm
      · rcases hsync with ⟨-, heq⟩ | ⟨hs', -⟩
        · rw [heq]
          exact hts
        · exact absurd hs' hs
  · by_cases hcs : Careful steps
    · -- the timestamp is that of the lost commit
      have hlost : Lost steps := by
        by_contra hlost
        exact hcare ⟨fun _ => hlost, hcs⟩
      obtain ⟨R, r, commits, hi, hr, -, hb⟩ := hinv.good hcs
      have hb := hb inner rfl
      have hle : ts ≤ r.commitTs := Fin.le_def.2 (by rw [hts, hb.ahead hlost])
      obtain ⟨e, he⟩ : ∃ e, replayRecord r (.commit t.id ts) = .error e := by
        refine ⟨.io ⟨.invalidData, "mvcc: commit timestamps are not increasing"⟩, ?_⟩
        simp [replayRecord, ensureBegun, hb.buffers.begun h t ht, hle, invalid, Res.fail]
      refine ⟨_, e, hi.write hg hlog hops, ?_⟩
      rw [replayPayloads_concat hlog, hr.replayPayloads]
      exact he
    · exact bad_write (hinv.bad hcs) hg hlog hops

/-- **A call** of a transaction. -/
theorem FaultInv.called {d : Disk Unit} {inner : Inner} {txns : ℕ → Option Transaction} {h : ℕ}
    {t : Transaction} {call : Call} {f : LogFaults} {out : Outcome}
    (hinv : FaultInv steps ⟨d, some inner, txns⟩) (ht : txns h = some t)
    (heff : FaultEffect f t inner call out) :
    FaultInv ((⟨d, some inner, txns⟩, .called h call f out.result) :: steps)
      ⟨d.runOps (onLog out.ops), some out.inner, Function.update txns h out.txn⟩ := by
  have hlogs : LogsCommit ⟨d, some inner, txns⟩ (.called h call f out.result) ↔
      call = .commit ∧ Commits f t inner := by
    cases call with
    | commit =>
      constructor
      · rintro ⟨inner', t', hs, ht', hc⟩
        cases hs
        rw [show txns h = some t' from ht'] at ht
        cases ht
        exact ⟨rfl, hc⟩
      · rintro ⟨-, hc⟩
        exact ⟨inner, t, rfl, ht, hc⟩
    | _ => simp [LogsCommit]
  have hacked : ∀ sys, NoCommit call out.result →
      acked ((sys, .called h call f out.result) :: steps) = acked steps := by
    intro sys hn
    cases call with
    | commit =>
      rcases hr : out.result with e | a
      · rfl
      · rw [hr] at hn
        cases hn
    | _ => rfl
  have hnone : ∀ h' t', Function.update txns h none h' = some t' → t'.finished = false :=
    fun h' t' ht' => hinv.unfinished h' t' (update_none_eq_some.1 ht').2
  have hsome : (txns h).isSome := by rw [ht]; rfl
  cases heff with
  | none hne =>
    have hl : ¬ LogsCommit ⟨d, some inner, txns⟩ _ := fun hl => hne (hlogs.1 hl).1
    refine hinv.idle hl (by simp) (fun sys => hacked sys ?_) le_rfl rfl (Or.inl ?_)
    · cases call <;> trivial
    · exact Function.update_eq_self_iff.2 ht.symm
  | @wrote call key value result hne hlog =>
    have hl : ¬ LogsCommit ⟨d, some inner, txns⟩ _ := fun hl => hne (hlogs.1 hl).1
    refine hinv.written hl (by simp) (fun sys => hacked sys ?_) hlog (Or.inl rfl) ?_ ?_
    · cases call <;> trivial
    · intro h' t' ht'
      rw [Function.update_apply] at ht'
      split_ifs at ht'
      · cases ht'
        exact hinv.unfinished h t ht
      · exact hinv.unfinished h' t' ht'
    · intro r commits hi hb
      refine ⟨by cases value <;> trivial, grow_of_isWrite (isWrite_writeRecord _ _ _), _,
        replayRecord_writeRecord (hb.buffers.begun h t ht) key value, ?_⟩
      exact ⟨hb.synced, hb.ahead, hb.nextTxn, hb.buffers.write ht key value⟩
  | @ended call result ops hcommit hn hops =>
    have hl : ¬ LogsCommit ⟨d, some inner, txns⟩ _ := fun hl => hcommit (hlogs.1 hl).1 (hlogs.1 hl).2
    rcases hops with rfl | hops
    · exact hinv.idle hl (by simp) (fun sys => hacked sys hn) le_rfl rfl (Or.inr ⟨h, hsome, rfl⟩)
    · refine hinv.written hl (by simp) (fun sys => hacked sys hn) (TxnRecord.loggable_abort t.id) hops
        hnone ?_
      intro r commits hi hb
      exact ⟨trivial, rfl, _, rfl, hb.synced, hb.ahead, hb.nextTxn,
        hb.buffers.finish ht (Or.inr ⟨rfl, rfl⟩)⟩
  | @lost ts e hc hs hts =>
    exact hinv.commit ht hc hts (Or.inl rfl) rfl (Or.inl ⟨hs, rfl⟩) fun e he => Or.inr he
  | @committed ts hc hs hts =>
    refine hinv.commit ht hc hts (Or.inr rfl) rfl (Or.inr ⟨hs, rfl⟩) fun e he => ?_
    simp only [acked, ht, Option.toList_some, List.map_cons, List.map_nil, List.singleton_append,
      List.mem_cons] at he
    exact he

/-- **One step** of a run. -/
theorem FaultInv.step (h : FaultInv steps sys) (hstep : FaultStep sys l sys') :
    FaultInv ((sys, l) :: steps) sys' := by
  cases hstep with
  | @opened d ops inner hopen =>
    have hcare : Careful steps := by
      by_contra hcare
      obtain ⟨R, e, hi, he⟩ := h.bad hcare
      rw [hi.openStore_error he] at hopen
      cases hopen
    obtain ⟨R, r, commits, hi, hr, hh, -⟩ := h.good hcare
    obtain ⟨next, hnext, hopen'⟩ := hi.openStore_ok hr
    rw [hopen] at hopen'
    cases hopen'
    have hfile : d.runOps [.create ()] () = some ((d ()).getD (File.settled [])) := rfl
    refine ⟨fun _ _ => ⟨_, hfile⟩, fun _ _ ht => (nomatch ht), fun _ => ?_, fun hc => ?_⟩
    · refine ⟨R, r, commits, ⟨hi.loggable, ?_⟩, hr, hh, ?_⟩
      · refine Eq.trans ?_ hi.bytes
        show ((some ((d ()).getD (File.settled []))).map File.bytes).getD [] =
          ((d ()).map File.bytes).getD []
        cases d () <;> rfl
      · intro inner hs
        cases hs
        exact ⟨fun _ => rfl, fun hlost => absurd rfl hlost.1, Fin.lt_def.2 (by simp only; omega),
          buffers_none r⟩
    · exact absurd ((careful_cons (by simp [LogsCommit])).2 hcare) hc
  | @closed d inner txns =>
    refine ⟨fun _ hs => (nomatch hs), fun _ _ ht => (nomatch ht), fun hc => ?_, fun hc => ?_⟩
    · obtain ⟨R, r, commits, hi, hr, hh, -⟩ := h.good ((careful_cons (by simp [LogsCommit])).1 hc)
      exact ⟨R, r, commits, hi, hr, hh, fun _ hs => (nomatch hs)⟩
    · exact h.bad fun hc' => hc ((careful_cons (by simp [LogsCommit])).2 hc')
  | @began d inner txns ops t inner' h₀ f hbegin hfree =>
    obtain ⟨e, he⟩ | ⟨next, hnext, ⟨e, ops', -, he⟩ | ⟨ops', hops, he⟩⟩ := beginOr_cases f inner
    · rw [he] at hbegin
      cases hbegin
    · rw [he] at hbegin
      cases hbegin
    · rw [he] at hbegin
      cases hbegin
      refine h.written (by simp [LogsCommit]) (by simp) (fun _ => rfl)
        (TxnRecord.loggable_begin inner.nextTxn inner.commitTs) hops (fun h' t' ht' => ?_) ?_
      · rw [Function.update_apply] at ht'
        split_ifs at ht'
        · cases ht'
          rfl
        · exact h.unfinished h' t' ht'
      · exact fun r commits hi hb => hb.begin hi hnext rfl (Or.inr ⟨h₀, rfl⟩)
  | @beginFailed d inner txns ops e inner' f hbegin =>
    obtain ⟨e', he⟩ | ⟨next, hnext, ⟨e', ops', hops, he⟩ | ⟨ops', -, he⟩⟩ := beginOr_cases f inner
    · rw [he] at hbegin
      cases hbegin
      exact h.idle (by simp [LogsCommit]) (by simp) (fun _ => rfl) le_rfl rfl (Or.inl rfl)
    · rw [he] at hbegin
      cases hbegin
      rcases hops with rfl | hops
      · exact h.idle (by simp [LogsCommit]) (by simp) (fun _ => rfl)
          (Fin.le_def.2 (by simp only; omega)) rfl (Or.inl rfl)
      · exact h.written (by simp [LogsCommit]) (by simp) (fun _ => rfl)
          (TxnRecord.loggable_begin inner.nextTxn inner.commitTs) hops h.unfinished
          fun r commits hi hb => hb.begin hi hnext rfl (Or.inl rfl)
    · rw [he] at hbegin
      cases hbegin
  | @called d inner txns h₀ t call f ht =>
    exact h.called ht (runOr_effect f inner (h.unfinished h₀ t ht) call)
  | @gc d inner txns =>
    exact h.idle (by simp [LogsCommit]) (by simp) (fun _ => rfl) le_rfl rfl (Or.inl rfl)

theorem faultInv_run (hrun : Trace FaultStep initial steps sys) : FaultInv steps sys := by
  induction hrun with
  | refl => exact initial_faultInv
  | step _ hs ih => exact ih.step hs

end Runs

theorem faultStep_called {d : Disk Unit} {inner inner' : Inner} {txns : ℕ → Option Transaction} {h : ℕ}
    {t : Transaction} {txn : Option Transaction} (call : Call) (f : LogFaults) {ops : List FileOp}
    {result : TxnRes Answer} (ht : txns h = some t)
    (hrun : call.runOr f t inner = ⟨ops, result, inner', txn⟩) :
    FaultStep ⟨d, some inner, txns⟩ (.called h call f result)
      ⟨d.runOps (onLog ops), some inner', Function.update txns h txn⟩ := by
  have := @FaultStep.called d inner _ _ _ call f ht
  rwa [hrun] at this

/-- The error of a disk. -/
def diskError : IoError := ⟨.other, "input/output error"⟩

/-- A transaction sets a key and commits, and the sync of a second one fails. -/
theorem lost_run : ∃ steps d txns,
    Trace FaultStep initial steps ⟨d, some ⟨[("a", [⟨"1", 1, none⟩])], [], 3, 1⟩, txns⟩ ∧
    txns 1 = none ∧ Careful steps ∧ Lost steps ∧ acked steps = [(1, [("a", some "1")])] := by
  have h1 : FaultStep initial .opened ⟨initial.disk.runOps [.create ()], some ⟨[], [], 1, 0⟩, noTxns⟩ :=
    .opened rfl
  have hrun := (Trace.refl initial).step h1
  have hrun := hrun.step (@FaultStep.began _ _ _ _ _ _ 0 {} rfl rfl)
  have hrun := hrun.step (faultStep_called (h := 0) (.set "a" "1") {} rfl rfl)
  have hrun := hrun.step (faultStep_called (h := 0) .commit {} rfl rfl)
  have hrun := hrun.step (@FaultStep.began _ _ _ _ _ _ 0 {} rfl rfl)
  have hrun := hrun.step (faultStep_called (h := 0) .commit { sync := some diskError } rfl rfl)
  refine ⟨_, _, _, hrun, rfl, ?_, ?_, rfl⟩
  · simp [Careful, Lost, LogsCommit, FaultLabel.SyncFails]
  · exact ⟨by simp, Or.inl ⟨⟨_, _, rfl, rfl, rfl, by decide, rfl⟩, by simp [FaultLabel.SyncFails]⟩⟩

/-- **A log that cannot be opened**: a commit returns after one whose sync failed, with the timestamp
    of that one. -/
theorem not_recovers_lost : ∃ steps sys, Trace FaultStep initial steps sys ∧
    (2, [("b", some "2")]) ∈ acked steps ∧ ¬ Recovers steps sys.disk := by
  obtain ⟨steps, d, txns, hrun, hfree, -, hlost, -⟩ := lost_run
  have hrun := hrun.step (@FaultStep.began _ _ _ _ _ _ 1 {} rfl hfree)
  have hrun := hrun.step (faultStep_called (h := 1) (.set "b" "2") {} rfl rfl)
  have hrun := hrun.step (faultStep_called (h := 1) .commit {} rfl rfl)
  refine ⟨_, _, hrun, List.mem_cons_self, ?_⟩
  rintro ⟨ops, inner, hopen, -⟩
  obtain ⟨R, e, hi, he⟩ := (faultInv_run hrun).bad
    (careless_cons ⟨_, _, rfl, rfl, rfl, by decide, rfl⟩ ⟨by simp, Or.inr ⟨by simp, Or.inr hlost⟩⟩)
  rw [hi.openStore_error he] at hopen
  cases hopen

/-- **When the log can be recovered**: the store can be opened, and has every commit that returned,
    if and only if no commit was logged after one whose sync had failed. -/
theorem recovers_iff {steps : List (System × FaultLabel)} {sys : System}
    (hrun : Trace FaultStep initial steps sys) : Recovers steps sys.disk ↔ Careful steps := by
  have hinv := faultInv_run hrun
  constructor
  · rintro ⟨ops, inner, hopen, -⟩
    by_contra hc
    obtain ⟨R, e, hi, he⟩ := hinv.bad hc
    rw [hi.openStore_error he] at hopen
    cases hopen
  · intro hc
    obtain ⟨R, r, commits, hi, hr, hh, -⟩ := hinv.good hc
    exact hh.recovers hi hr

/-- In the run with the lost commit, the commit that returned is recovered. -/
theorem recovers_iff_lost : ∃ steps sys, Trace FaultStep initial steps sys ∧
    acked steps = [(1, [("a", some "1")])] ∧ Careful steps ∧ Recovers steps sys.disk := by
  obtain ⟨steps, d, txns, hrun, -, hcare, -, hacked⟩ := lost_run
  exact ⟨steps, _, hrun, hacked, hcare, (recovers_iff hrun).2 hcare⟩

end Mvcc

end NutDb
