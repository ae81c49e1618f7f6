/-
  Crashes in the middle of a script (`src/sql/executor.rs`).

  `scriptOps` are the operations on the log that a script issues, statement by
  statement; a crash may come after any of them, and cut the log at any byte that
  is not synced.  The engine that is opened then shows the tables as they were
  committed after some number of statements: all statements that were complete,
  and perhaps the one that the crash has interrupted (`script_crash`).
-/
import NutDb.Sql.Transactions

namespace NutDb.Sql

open Lib Mvcc

/-! ## The operations of a script -/

/-- A session that keeps the operations it has issued. -/
structure Traced where
  session : Session
  ops : List (DiskOp Unit)

/-- What a write of a transaction has done. -/
def Traced.wrote (t : Traced) (out : List FileOp × TxnRes Unit × Transaction) : Res Unit × Traced :=
  ((t.session.wrote out).1, ⟨(t.session.wrote out).2, t.ops ++ onLog out.1⟩)

instance : Txn Traced where
  get key t := (txnResult (t.session.txn.get t.session.inner key), t)
  scanPrefix pre t := (txnResult (t.session.txn.scanPrefix t.session.inner pre), t)
  set key value t := t.wrote (t.session.txn.set key value)
  delete key t := t.wrote (t.session.txn.delete key)

/-- The call that ends a transaction of one statement, by what the statement has come to. -/
def ending {α : Type} : Res α → Call
  | .ok _ => .commit
  | .error (.io _) => .abort
  | .error (.panic _) => .drop

namespace SqlEngine

/-- The operations of `with_transaction`. -/
def transactionOps {α : Type} (operation : Act Traced α) (e : SqlEngine) : List (DiskOp Unit) :=
  match e.active with
  | some txn => (operation.run ⟨⟨e.disk, e.inner, txn⟩, []⟩).2.ops
  | none =>
    match e.inner.begin with
    | (ops, .error _, _) => onLog ops
    | (ops, .ok txn, inner) =>
      match operation.run ⟨⟨e.disk.runOps (onLog ops), inner, txn⟩, onLog ops⟩ with
      | (result, t) => t.ops ++ onLog ((ending result).run t.session.txn t.session.inner).ops

/-- The operations of `COMMIT` and `ROLLBACK`. -/
def finishOps (call : Call) (e : SqlEngine) : List (DiskOp Unit) :=
  match e.active with
  | none => []
  | some txn => onLog (call.run txn e.inner).ops

/-- The operations of `execute_statement`. -/
def statementOps (e : SqlEngine) : Statement → List (DiskOp Unit)
  | .begin => if e.active.isSome then [] else onLog e.inner.begin.1
  | .commit => e.finishOps .commit
  | .rollback => e.finishOps .abort
  | other => e.transactionOps (executeData other)

/-- The operations of a script. -/
def scriptOps (e : SqlEngine) : List Statement → List (DiskOp Unit)
  | [] => []
  | statement :: statements =>
    match (executeStatement statement).run e with
    | (.ok _, e') => e.statementOps statement ++ e'.scriptOps statements
    | (.error _, _) => e.statementOps statement

/-- The tables without the open transaction. -/
def committed (e : SqlEngine) : List (String × String) := visible { e with active := none }

end SqlEngine

/-- The traced session that a session is part of. -/
def Traces (d : Disk Unit) (t : Traced) (s : Session) : Prop := t.session = s ∧ s.disk = d.runOps t.ops

section Traces
variable {d : Disk Unit} {t : Traced} {s : Session}

theorem Traces.wrote (h : Traces d t s) (out : List FileOp × TxnRes Unit × Transaction) :
    (t.wrote out).1 = (s.wrote out).1 ∧ Traces d (t.wrote out).2 (s.wrote out).2 := by
  obtain ⟨rfl, hdisk⟩ := h
  refine ⟨rfl, rfl, ?_⟩
  obtain ⟨ops, result, txn⟩ := out
  change t.session.disk.runOps (onLog ops) = d.runOps (t.ops ++ onLog ops)
  rw [hdisk, Disk.runOps_append]

/-- **The operations of a traced session** are those of the session. -/
theorem traced_simulates (d : Disk Unit) : TxnSimulates (Traces d) where
  get key t s h := by
    obtain ⟨rfl, hdisk⟩ := h
    exact ⟨rfl, rfl, hdisk⟩
  scanPrefix pre t s h := by
    obtain ⟨rfl, hdisk⟩ := h
    exact ⟨rfl, rfl, hdisk⟩
  set key value t s h := by
    obtain ⟨rfl, hdisk⟩ := h
    exact Traces.wrote ⟨rfl, hdisk⟩ _
  delete key t s h := by
    obtain ⟨rfl, hdisk⟩ := h
    exact Traces.wrote ⟨rfl, hdisk⟩ _

/-- The operations of an engine, as they are listed. -/
theorem finish_disk (e : SqlEngine) (txn : Transaction) (call : Call) :
    (e.finish txn call).2.disk = e.disk.runOps (onLog (call.run txn e.inner).ops) := rfl

theorem transactionOps_disk {α : Type} {operation : Act Traced α} {operation' : Act Session α}
    (h : ∀ d, Act.Simulates (Traces d) operation operation') (e : SqlEngine) :
    ((SqlEngine.withTransaction operation').run e).2.disk = e.disk.runOps (e.transactionOps operation) := by
  obtain ⟨disk, inner, active⟩ := e
  unfold SqlEngine.transactionOps Act.run SqlEngine.withTransaction
  cases active with
  | some txn =>
    obtain ⟨-, hs⟩ := h disk ⟨⟨disk, inner, txn⟩, []⟩ ⟨disk, inner, txn⟩ ⟨rfl, rfl⟩
    exact hs.2
  | none =>
    rcases hbegin : inner.begin with ⟨ops, fault | txn, inner'⟩
    · simp only [SqlEngine.beginTxn, hbegin, txnResult]
    · obtain ⟨hres, hs⟩ := h disk ⟨⟨disk.runOps (onLog ops), inner', txn⟩, onLog ops⟩
        ⟨disk.runOps (onLog ops), inner', txn⟩ ⟨rfl, rfl⟩
      simp only [Act.run, SqlEngine.beginTxn, hbegin, txnResult] at hres hs ⊢
      rcases hop : operation ⟨⟨disk.runOps (onLog ops), inner', txn⟩, onLog ops⟩ with ⟨result, t⟩
      rcases hop' : operation' ⟨disk.runOps (onLog ops), inner', txn⟩ with ⟨result', s⟩
      rw [hop, hop'] at hres hs
      obtain rfl : result = result' := hres
      obtain ⟨rfl, hdisk⟩ := hs
      rw [Disk.runOps_append, ← hdisk]
      cases result with
      | ok value =>
        simp only [ending]
        rcases hf : SqlEngine.finish ⟨t.session.disk, t.session.inner, none⟩ t.session.txn .commit with ⟨r, e'⟩
        have hfin := finish_disk ⟨t.session.disk, t.session.inner, none⟩ t.session.txn .commit
        rw [hf] at hfin
        cases r with
        | ok u => exact hfin
        | error fault => exact hfin
      | error fault =>
        cases fault with
        | io error => rfl
        | panic p => rfl

/-- **The operations of a statement** lead to the disk that it leaves. -/
theorem statement_disk (e : SqlEngine) (statement : Statement) :
    ((SqlEngine.executeStatement statement).run e).2.disk = e.disk.runOps (e.statementOps statement) := by
  have hdata := transactionOps_disk (fun d => (traced_simulates d).executeData statement) e
  have hfinish : ∀ call done, ((SqlEngine.finishStatement call done).run e).2.disk = e.disk.runOps (e.finishOps call) := by
    intro call done
    obtain ⟨disk, inner, active⟩ := e
    unfold SqlEngine.finishOps Act.run SqlEngine.finishStatement
    cases active with
    | none => rfl
    | some txn =>
      have hfin := finish_disk ⟨disk, inner, some txn⟩ txn call
      simp only
      rcases hf : SqlEngine.finish ⟨disk, inner, some txn⟩ txn call with ⟨r, e'⟩
      rw [hf] at hfin
      cases r with
      | ok u => exact hfin
      | error fault => exact hfin
  cases statement with
  | begin =>
    obtain ⟨disk, inner, active⟩ := e
    cases active with
    | some txn => rfl
    | none =>
      rcases hbegin : inner.begin with ⟨ops, fault | txn, inner'⟩
      · simp only [SqlEngine.executeStatement, Act.run, SqlEngine.beginStatement, SqlEngine.beginTxn, hbegin, txnResult]
        simp [SqlEngine.statementOps, hbegin]
      · simp only [SqlEngine.executeStatement, Act.run, SqlEngine.beginStatement, SqlEngine.beginTxn, hbegin, txnResult]
        simp [SqlEngine.statementOps, hbegin]
  | commit => exact hfinish .commit .committed
  | rollback => exact hfinish .abort .rolledBack
  | createTable table columns => exact hdata
  | insert table columns values => exact hdata
  | select select => exact hdata
  | update table assignments filter => exact hdata
  | delete table filter => exact hdata
  | explain select => exact hdata

/-- **The operations of a script** lead to the disk that it leaves. -/
theorem script_disk (e : SqlEngine) (statements : List Statement) :
    ((SqlEngine.executeAll statements).run e).2.disk = e.disk.runOps (e.scriptOps statements) := by
  induction statements generalizing e with
  | nil => rfl
  | cons statement statements ih =>
    have hstatement := statement_disk e statement
    rw [SqlEngine.executeAll, SqlEngine.scriptOps]
    rcases hrun : (SqlEngine.executeStatement statement).run e with ⟨fault | result, e'⟩
    · rw [hrun] at hstatement
      rw [Act.run_bind_error hrun]
      exact hstatement
    · rw [hrun] at hstatement
      rw [Act.run_bind_ok hrun]
      simp only
      rw [Disk.runOps_append, ← hstatement, ← ih e', Act.run_bind]
      rcases (SqlEngine.executeAll statements).run e' with ⟨fault | results, e''⟩
      · rfl
      · rfl

end Traces

/-! ## Crashes -/

/-- What is left of the log after a crash, and after more crashes while the file is opened. -/
inductive Left (d : Disk Unit) : Disk Unit → Prop
  | crash {d'} : d.Crashed d' → Left d d'
  | again {d' d''} (k : ℕ) : Left d d' → (d'.runOps ((openStore d').1.take k)).Crashed d'' → Left d d''

/-- A log from which the tables are recovered. -/
def Recovers (d : Disk Unit) (m : Tables) : Prop :=
  ∃ commits, Stored d commits [] ∧ ∀ key, m.get key = valueAfter commits key

/-- A traced session that began with the disk `d`, and that shows the tables `m`; a crash recovers the
    tables `m₀`. -/
structure Traced.Shows (d : Disk Unit) (inner : Inner) (commits : List Writes) (t : Traced) (m : Tables) : Prop where
  session : t.session.Shows inner commits m
  disk : t.session.disk = d.runOps t.ops
  crash : ∀ k d', (d.runOps (t.ops.take k)).Crashed d' → Stored d' commits []

section Crash
variable {d d' : Disk Unit} {inner : Inner} {commits : List Writes} {t : Traced} {s : Session} {m m' : Tables}
  {e : SqlEngine} {db : Database} {k : ℕ}

/-- **Opening** what is left of a log. -/
theorem Recovers.open (h : Recovers d m) : ∃ e', SqlEngine.open d = .ok e' ∧ e'.active = none ∧
    e'.visible = m.entries := by
  obtain ⟨commits, hstored, htables⟩ := h
  obtain ⟨ops, inner, r, hopen, hinner, hnext, hlog, -⟩ := hstored.open
  have hrep := rep_opened hinner hnext hlog htables
  refine ⟨⟨d.runOps ops, inner, none⟩, by rw [SqlEngine.open, hopen], rfl, ?_⟩
  rw [hrep.visible]
  rfl

/-- Operations and then more of them, after which a crash comes. -/
theorem crashed_append {ops ops' : List (DiskOp Unit)} (hc : (d.runOps ((ops ++ ops').take k)).Crashed d') :
    (d.runOps (ops.take k)).Crashed d' ∨
      ∃ j, k = ops.length + j ∧ ((d.runOps ops).runOps (ops'.take j)).Crashed d' := by
  rcases Nat.le_total k ops.length with hle | hle
  · rw [List.take_append_of_le_length hle] at hc
    exact Or.inl hc
  · obtain ⟨j, rfl⟩ := Nat.exists_eq_add_of_le hle
    rw [List.take_length_add_append, Disk.runOps_append] at hc
    exact Or.inr ⟨j, rfl, hc⟩

theorem take_onLog (ops : List FileOp) (k : ℕ) : (onLog ops).take k = onLog (ops.take k) := List.map_take.symm

/-- A crash in a call of the open transaction: it is a step of the store. -/
theorem Session.Shows.crash_call (h : s.Shows inner commits m) (call : Call)
    (hc : (s.disk.runOps ((onLog (call.run s.txn s.inner).ops).take k)).Crashed d') :
    ∃ commits', Extends ⟨s.disk, some s.inner, handles (some s.txn)⟩ (.callCrash 0 call k) commits commits' ∧
      Stored d' commits' [] := by
  rw [take_onLog] at hc
  have hissued : Inv ⟨s.disk, some s.inner, handles (some s.txn)⟩ commits (issued []) := h.inv
  obtain ⟨-, commits', hext, hinv⟩ := step_inv hissued (.callCrash (h := 0) call (handles_zero (some s.txn)) hc)
  exact ⟨commits', hext, inv_forget hinv⟩

/-- **A write** of a traced session. -/
theorem Traced.Shows.wrote (h : t.Shows d inner commits m) (call : Call) (key : String) (value : Option String)
    (hcall : call.write = some (key, value))
    (hrun : (call.run t.session.txn t.session.inner).ops =
      (t.session.txn.write (writeRecord t.session.txn.id key value) key value).1) :
    (t.wrote (t.session.txn.write (writeRecord t.session.txn.id key value) key value)).1 =
      ((refusal (writeRecord 0 key value)).elim (.ok ()) .error : Res Unit) ∧
    (t.wrote (t.session.txn.write (writeRecord t.session.txn.id key value) key value)).2.Shows d inner commits
      ((refusal (writeRecord 0 key value)).elim (value.elim (m.erase key) (m.insert key)) fun _ => m) := by
  obtain ⟨hres, hshows⟩ := h.session.write key value
  refine ⟨hres, hshows, ?_, fun k d' hc => ?_⟩
  · rw [Traced.wrote]
    generalize t.session.txn.write (writeRecord t.session.txn.id key value) key value = out
    obtain ⟨ops, result, txn⟩ := out
    change t.session.disk.runOps (onLog ops) = d.runOps (t.ops ++ onLog ops)
    rw [h.disk, Disk.runOps_append]
  · rcases crashed_append hc with hc | ⟨j, -, hc⟩
    · exact h.crash k d' hc
    · rw [← h.disk, ← hrun] at hc
      obtain ⟨commits', hext, hstored⟩ := h.session.crash_call call hc
      cases call with
      | set key value =>
        obtain rfl : commits' = commits := hext
        exact hstored
      | delete key =>
        obtain rfl : commits' = commits := hext
        exact hstored
      | get key => cases hcall
      | scanPrefix pre => cases hcall
      | commit => cases hcall
      | abort => cases hcall
      | drop => cases hcall

/-- **The operations of a traced session** are those of the tables that it shows. -/
theorem tracedShows_simulates (d : Disk Unit) (inner : Inner) (commits : List Writes) :
    TxnSimulates (Traced.Shows d inner commits) where
  get key t m h := ⟨((session_simulates inner commits).get key t.session m h.session).1, h⟩
  scanPrefix pre t m h := ⟨((session_simulates inner commits).scanPrefix pre t.session m h.session).1, h⟩
  set key value t m h := by
    rw [set_run]
    exact h.wrote (.set key value) key (some value) rfl rfl
  delete key t m h := by
    rw [delete_run]
    exact h.wrote (.delete key) key none rfl rfl

/-- **A crash in a commit**: the tables are those before it or those after it. -/
theorem commit_crash (hbased : db.Based s.inner commits) (hs : s.Shows s.inner commits m)
    (hc : (s.disk.runOps ((onLog (Call.run s.txn s.inner .commit).ops).take k)).Crashed d') :
    Recovers d' db.tables ∨ Recovers d' (db.commitTxn m).2.tables := by
  have hcommits : ∀ {d'}, Stored d' commits [] → Recovers d' db.tables := fun h => ⟨commits, h, hbased.tables⟩
  obtain ⟨r, hlog, hm⟩ := hs.inv
  have heff := call_effect s.inner hs.opened.1 .commit
  generalize Call.run s.txn s.inner .commit = out at heff hc
  cases heff with
  | none hne _ => exact absurd rfl hne
  | wrote hw _ => cases hw
  | dropped _ _ =>
    rw [take_onLog, List.take_nil] at hc
    exact Or.inl (hcommits (hlog.crashed hc))
  | aborted _ _ =>
    rw [take_onLog] at hc
    rcases hlog.crash_record (TxnRecord.loggable_abort s.txn.id) trivial rfl (Or.inr rfl) hc with h | h
    · exact Or.inl (hcommits h)
    · exact Or.inl (hcommits h)
  | @committed ts hts =>
    have hopen := hm.opened 0 s.txn (handles_zero _)
    have hts' : ts.val = r.commitTs.val + 1 := by rw [hts, hm.commitTs]
    have hlen : ts.val = commits.length + 1 := by rw [hts', hlog.inv.commitTs]
    have hgrow : grow r commits (.commit s.txn.id ts) = commits ++ [s.txn.writes] := by
      rw [grow, hopen.pending, Option.getD_some]
    rw [take_onLog] at hc
    rcases hlog.crash_record (TxnRecord.loggable_commit s.txn.id ts) hlen (replayRecord_commit hopen.begun hts')
      (Or.inr rfl) hc with h | h
    · exact Or.inl (hcommits h)
    · rw [hgrow] at h
      have hnext : db.commitTs.checkedAdd 1 = some ts := by
        rw [hbased.commitTs]
        exact U64.checkedAdd_eq_some.2 hts
      refine Or.inr ⟨_, h, fun key => ?_⟩
      rw [Database.commitTxn, hnext, valueAfter_concat, hs.views key, getAt_newest hs.inv hs.snapshot]

/-- **A crash in the end of a transaction** that has no effect. -/
theorem abort_crash (hbased : db.Based s.inner commits) (hs : s.Shows s.inner commits m) {call : Call}
    (hcall : call = .abort ∨ call = .drop)
    (hc : (s.disk.runOps ((onLog (call.run s.txn s.inner).ops).take k)).Crashed d') : Recovers d' db.tables := by
  obtain ⟨commits', hext, hstored⟩ := hs.crash_call call hc
  obtain rfl : commits' = commits := by
    rcases hcall with rfl | rfl
    · exact hext
    · exact hext
  exact ⟨_, hstored, hbased.tables⟩

/-- A crash in the end of a transaction that has given a result. -/
theorem ending_crash {α : Type} {result : Res α} (hbased : db.Based s.inner commits) (hs : s.Shows s.inner commits m)
    (hc : (s.disk.runOps ((onLog ((ending result).run s.txn s.inner).ops).take k)).Crashed d') :
    Recovers d' db.tables ∨ ∃ value, result = .ok value ∧ Recovers d' (db.commitTxn m).2.tables := by
  cases result with
  | ok value => exact (commit_crash hbased hs hc).imp_right fun h => ⟨value, rfl, h⟩
  | error fault =>
    cases fault with
    | io error => exact Or.inl (abort_crash hbased hs (Or.inl rfl) hc)
    | panic p => exact Or.inl (abort_crash hbased hs (Or.inr rfl) hc)

/-- **A crash in the beginning of a transaction.** -/
theorem begin_crash (hinv : Inv ⟨d, some inner, handles none⟩ commits [])
    (hc : (d.runOps ((onLog inner.begin.1).take k)).Crashed d') : Stored d' commits [] := by
  rw [take_onLog] at hc
  have hissued : Inv ⟨d, some inner, handles none⟩ commits (issued []) := hinv
  obtain ⟨-, commits', hext, hinv'⟩ := step_inv hissued (.beginCrash hc)
  obtain rfl : commits' = commits := hext
  exact inv_forget hinv'

/-- A crash between two statements. -/
theorem SqlEngine.Rep.crashed (h : e.Rep db) (hc : e.disk.Crashed d') : Recovers d' db.tables := by
  cases h with
  | busy hactive hbased hs =>
    obtain ⟨r, hlog, -⟩ := hs.inv
    exact ⟨_, hlog.crashed hc, hbased.tables⟩
  | idle hactive hbased hinv =>
    obtain ⟨r, hlog, -⟩ := hinv
    exact ⟨_, hlog.crashed hc, hbased.tables⟩

/-- **A crash in a statement on tables**: they are as before it, or as after it. -/
theorem transaction_crash {α : Type} {operation : Act Traced α} {operation' : Act Tables α}
    (h : ∀ d inner commits, Act.Simulates (Traced.Shows d inner commits) operation operation') (hrep : e.Rep db)
    (hc : (e.disk.runOps ((e.transactionOps operation).take k)).Crashed d') :
    Recovers d' db.tables ∨ Recovers d' ((Database.withTransaction operation').run db).2.tables := by
  cases hrep with
  | busy hactive hbased hs =>
    rename_i s commits m
    have hnothing : ∀ k d', (s.disk.runOps (([] : List (DiskOp Unit)).take k)).Crashed d' → Stored d' commits [] := by
      intro k d' hc
      obtain ⟨r, hlog, -⟩ := hs.inv
      rw [List.take_nil] at hc
      exact hlog.crashed hc
    obtain ⟨-, ht⟩ := h s.disk s.inner commits ⟨s, []⟩ m ⟨hs, rfl, hnothing⟩
    exact Or.inl ⟨commits, ht.crash k d' hc, hbased.tables⟩
  | idle hactive hbased hinv =>
    rename_i disk inner commits
    obtain ⟨tables, active, nextTxn, commitTs⟩ := db
    obtain rfl : active = none := hactive
    unfold SqlEngine.transactionOps at hc
    rcases hbegin : inner.begin with ⟨ops, fault | txn, inner'⟩
    · simp only [hbegin] at hc
      have hstored : Stored d' commits [] := begin_crash (k := k) hinv (by rw [hbegin]; exact hc)
      exact Or.inl ⟨commits, hstored, hbased.tables⟩
    · have hbegun : SqlEngine.beginTxn ⟨disk, inner, none⟩ = (.ok txn, ⟨disk.runOps (onLog ops), inner', none⟩) := by
        simp only [SqlEngine.beginTxn, hbegin, txnResult]
      obtain ⟨fault, he, -⟩ | ⟨s, next, he, hdb, hbased', hs⟩ := begin_simulates hbased hinv
      · rw [hbegun] at he
        cases he
      obtain ⟨disk₁, inner₁, txn₁⟩ := s
      rw [hbegun] at he
      cases he
      have hbefore : ∀ k d', (disk.runOps ((onLog ops).take k)).Crashed d' → Stored d' commits [] := fun k d' hc =>
        begin_crash (k := k) hinv (by rw [hbegin]; exact hc)
      obtain ⟨hres, ht⟩ := h disk inner₁ commits ⟨⟨disk.runOps (onLog ops), inner₁, txn₁⟩, onLog ops⟩ tables
        ⟨hs, rfl, hbefore⟩
      simp only [hbegin, Act.run, Database.withTransaction, hdb] at hc hres ht ⊢
      rcases hop : operation ⟨⟨disk.runOps (onLog ops), inner₁, txn₁⟩, onLog ops⟩ with ⟨result, t⟩
      rcases hop' : operation' tables with ⟨result', m'⟩
      rw [hop, hop'] at hres ht
      obtain rfl : result = result' := hres
      simp only [hop] at hc
      have hbased'' : Database.Based ⟨tables, none, next, commitTs⟩ t.session.inner commits := by
        rw [ht.session.inner_eq]
        exact hbased'
      rcases crashed_append hc with hc | ⟨j, -, hc⟩
      · exact Or.inl ⟨commits, ht.crash k d' hc, hbased.tables⟩
      · rw [← ht.disk] at hc
        rcases ending_crash hbased'' ht.session.self hc with h | ⟨value, rfl, h⟩
        · exact Or.inl h
        · refine Or.inr ?_
          rcases hcommit : Database.commitTxn ⟨tables, none, next, commitTs⟩ m' with ⟨r, db'⟩
          rw [hcommit] at h
          simp only [hcommit]
          cases r with
          | ok u => exact h
          | error fault => exact h

/-- **A crash in a statement**: the committed tables are as before it, or as after it. -/
theorem statement_crash (statement : Statement) (hrep : e.Rep db)
    (hc : (e.disk.runOps ((e.statementOps statement).take k)).Crashed d') :
    Recovers d' db.tables ∨ Recovers d' ((Database.executeStatement statement).run db).2.tables := by
  have hdata : ((e.disk.runOps ((e.transactionOps (executeData statement)).take k)).Crashed d') →
      Recovers d' db.tables ∨ Recovers d' ((Database.withTransaction (executeData statement)).run db).2.tables :=
    fun h => transaction_crash
      (fun d inner commits => (tracedShows_simulates d inner commits).executeData statement) hrep h
  have hnone : e.disk.Crashed d' → Recovers d' db.tables := hrep.crashed
  cases statement with
  | begin =>
    cases hrep with
    | busy hactive hbased hs =>
      simp only [SqlEngine.statementOps, Option.isSome_some, if_true, List.take_nil] at hc
      exact Or.inl (hnone hc)
    | idle hactive hbased hinv => exact Or.inl ⟨_, begin_crash hinv hc, hbased.tables⟩
  | commit =>
    cases hrep with
    | busy hactive hbased hs =>
      rename_i s commits m
      rcases commit_crash hbased hs hc with h | h
      · exact Or.inl h
      · refine Or.inr ?_
        simp only [Database.executeStatement, Act.run, Database.commitStatement, hactive]
        rcases hcommit : db.commitTxn m with ⟨r, db'⟩
        rw [hcommit] at h
        cases r with
        | ok u => exact h
        | error fault => exact h
    | idle hactive hbased hinv =>
      rw [SqlEngine.statementOps, SqlEngine.finishOps, List.take_nil] at hc
      exact Or.inl (hnone hc)
  | rollback =>
    cases hrep with
    | busy hactive hbased hs => exact Or.inl (abort_crash hbased hs (Or.inl rfl) hc)
    | idle hactive hbased hinv =>
      rw [SqlEngine.statementOps, SqlEngine.finishOps, List.take_nil] at hc
      exact Or.inl (hnone hc)
  | createTable table columns => exact hdata hc
  | insert table columns values => exact hdata hc
  | select select => exact hdata hc
  | update table assignments filter => exact hdata hc
  | delete table filter => exact hdata hc
  | explain select => exact hdata hc

/-- Without the open transaction, the engine shows the committed tables. -/
theorem SqlEngine.Rep.shows_committed (h : e.Rep db) : e.committed = db.tables.entries := by
  have hshows : ∀ {disk inner commits txns}, db.Based inner commits → Inv ⟨disk, some inner, txns⟩ commits [] →
      SqlEngine.visible ⟨disk, inner, none⟩ = db.tables.entries := by
    intro disk inner commits txns hbased hinv
    have hviews : Transaction.Views { id := inner.nextTxn, snapshot := inner.commitTs } inner db.tables :=
      fun key => by
        rw [hbased.tables]
        exact (getAt_newest hinv (commitTs_eq hinv) key).symm
    have hscan := hviews.scanPrefix rfl List.Pairwise.nil ""
    have hall : (db.tables.entries.filter fun e => startsWith e.1 "") = db.tables.entries :=
      List.filter_eq_self.2 fun _ _ => startsWith_iff.2 List.nil_prefix
    simp only [SqlEngine.visible, SqlEngine.reader, Option.getD_none, hscan, hall]
  cases h with
  | idle hactive hbased hinv => exact hshows hbased hinv
  | busy hactive hbased hs => exact hshows hbased hs.inv

/-- What a crash after `k` operations of a script recovers: the tables as they were committed after `n`
    statements, which are all that were complete, and perhaps the next one. -/
structure RecoversScript (e : SqlEngine) (statements : List Statement) (k : ℕ) (d : Disk Unit) (n : ℕ) : Prop where
  le : n ≤ statements.length
  recovers : ∃ db, ((SqlEngine.executeAll (statements.take n)).run e).2.Rep db ∧ Recovers d db.tables
  complete : ∀ i ≤ statements.length, (e.scriptOps (statements.take i)).length ≤ k → i ≤ n
  begun : (e.scriptOps (statements.take (n - 1))).length ≤ k

/-- The operations of a script whose first statement succeeds. -/
theorem scriptOps_cons_ok {statement : Statement} {result : SqlResult} {e' : SqlEngine}
    (hrun : (SqlEngine.executeStatement statement).run e = (.ok result, e')) (statements : List Statement) :
    e.scriptOps (statement :: statements) = e.statementOps statement ++ e'.scriptOps statements := by
  rw [SqlEngine.scriptOps, hrun]

theorem scriptOps_cons_error {statement : Statement} {fault : Fault} {e' : SqlEngine}
    (hrun : (SqlEngine.executeStatement statement).run e = (.error fault, e')) (statements : List Statement) :
    e.scriptOps (statement :: statements) = e.statementOps statement := by
  rw [SqlEngine.scriptOps, hrun]

theorem executeAll_cons_ok {statement : Statement} {result : SqlResult} {e' : SqlEngine}
    (hrun : (SqlEngine.executeStatement statement).run e = (.ok result, e')) (statements : List Statement) :
    ((SqlEngine.executeAll (statement :: statements)).run e).2 = ((SqlEngine.executeAll statements).run e').2 := by
  rw [SqlEngine.executeAll, Act.run_bind_ok hrun, Act.run_bind]
  rcases (SqlEngine.executeAll statements).run e' with ⟨fault | results, e''⟩
  · rfl
  · rfl

theorem executeAll_cons_error {statement : Statement} {fault : Fault} {e' : SqlEngine}
    (hrun : (SqlEngine.executeStatement statement).run e = (.error fault, e')) (statements : List Statement) :
    ((SqlEngine.executeAll (statement :: statements)).run e).2 = e' := by
  rw [SqlEngine.executeAll, Act.run_bind_error hrun]

/-- The operations of the first statement are among those of the script. -/
theorem statementOps_le (e : SqlEngine) (statement : Statement) (statements : List Statement) :
    (e.statementOps statement).length ≤ (e.scriptOps (statement :: statements)).length := by
  rcases hrun : (SqlEngine.executeStatement statement).run e with ⟨fault | result, e'⟩
  · rw [scriptOps_cons_error hrun]
  · rw [scriptOps_cons_ok hrun, List.length_append]
    exact Nat.le_add_right _ _

/-- The crash comes in the first statement. -/
theorem RecoversScript.first {statement : Statement} {statements : List Statement} {n : ℕ} (hn : n ≤ 1)
    (hk : k < (e.statementOps statement).length)
    (h : ∃ db, ((SqlEngine.executeAll ((statement :: statements).take n)).run e).2.Rep db ∧ Recovers d' db.tables) :
    RecoversScript e (statement :: statements) k d' n where
  le := by
    rw [List.length_cons]
    omega
  recovers := h
  complete i _ hle := by
    cases i with
    | zero => exact Nat.zero_le _
    | succ i =>
      have hops := statementOps_le e statement (statements.take i)
      rw [List.take_succ_cons] at hle
      omega
  begun := by
    have hzero : n - 1 = 0 := by omega
    rw [hzero]
    exact Nat.zero_le _

/-- The crash comes after the first statement. -/
theorem RecoversScript.next {statement : Statement} {statements : List Statement} {result : SqlResult}
    {e' : SqlEngine} {n j : ℕ} (hrun : (SqlEngine.executeStatement statement).run e = (.ok result, e'))
    (h : RecoversScript e' statements j d' n) :
    RecoversScript e (statement :: statements) ((e.statementOps statement).length + j) d' (n + 1) where
  le := Nat.succ_le_succ h.le
  recovers := by
    rw [List.take_succ_cons, executeAll_cons_ok hrun]
    exact h.recovers
  complete i hi hle := by
    cases i with
    | zero => exact Nat.zero_le _
    | succ i =>
      rw [List.take_succ_cons, scriptOps_cons_ok hrun, List.length_append] at hle
      exact Nat.succ_le_succ (h.complete i (Nat.le_of_succ_le_succ hi) (by omega))
  begun := by
    rw [Nat.add_sub_cancel]
    cases n with
    | zero => exact Nat.zero_le _
    | succ n =>
      rw [List.take_succ_cons, scriptOps_cons_ok hrun, List.length_append]
      exact Nat.add_le_add_left h.begun _

/-- The first statement fails, and the crash comes after it. -/
theorem RecoversScript.failed {statement : Statement} {statements : List Statement} {fault : Fault} {e' : SqlEngine}
    (hrun : (SqlEngine.executeStatement statement).run e = (.error fault, e'))
    (hk : (e.statementOps statement).length ≤ k) (hrep : e'.Rep db) (h : Recovers d' db.tables) :
    RecoversScript e (statement :: statements) k d' (statements.length + 1) where
  le := le_rfl
  recovers := by
    rw [List.take_succ_cons, executeAll_cons_error hrun]
    exact ⟨db, hrep, h⟩
  complete i hi _ := hi
  begun := by
    rw [Nat.add_sub_cancel]
    cases statements.length with
    | zero => exact Nat.zero_le _
    | succ n =>
      rw [List.take_succ_cons, scriptOps_cons_error hrun]
      exact hk

/-- **A crash in a script.** -/
theorem recoversScript (statements : List Statement) (hrep : e.Rep db)
    (hc : (e.disk.runOps ((e.scriptOps statements).take k)).Crashed d') :
    ∃ n, RecoversScript e statements k d' n := by
  induction statements generalizing e db k with
  | nil =>
    rw [SqlEngine.scriptOps, List.take_nil] at hc
    exact ⟨0, le_rfl, ⟨db, hrep, hrep.crashed hc⟩, fun i hi _ => hi, Nat.zero_le _⟩
  | cons statement statements ih =>
    obtain ⟨-, hrep'⟩ := executeStatement_simulates statement e db hrep
    have hdisk := statement_disk e statement
    rcases hrun : (SqlEngine.executeStatement statement).run e with ⟨result, e'⟩
    rw [hrun] at hrep' hdisk
    rcases Nat.lt_or_ge k (e.statementOps statement).length with hk | hk
    · have hfirst : (e.disk.runOps ((e.statementOps statement).take k)).Crashed d' := by
        cases result with
        | ok result =>
          rw [scriptOps_cons_ok hrun, List.take_append_of_le_length hk.le] at hc
          exact hc
        | error fault =>
          rw [scriptOps_cons_error hrun] at hc
          exact hc
      have hone : ((SqlEngine.executeAll [statement]).run e).2 = e' := by
        cases result with
        | ok result => exact executeAll_cons_ok hrun []
        | error fault => exact executeAll_cons_error hrun []
      rcases statement_crash statement hrep hfirst with h | h
      · exact ⟨0, .first (Nat.zero_le _) hk ⟨db, hrep, h⟩⟩
      · exact ⟨1, .first le_rfl hk ⟨_, hone ▸ hrep', h⟩⟩
    · obtain ⟨j, rfl⟩ := Nat.exists_eq_add_of_le hk
      cases result with
      | ok result =>
        rw [scriptOps_cons_ok hrun, List.take_length_add_append, Disk.runOps_append, ← hdisk] at hc
        obtain ⟨n, hn⟩ := ih hrep' hc
        exact ⟨n + 1, hn.next hrun⟩
      | error fault =>
        rw [scriptOps_cons_error hrun, List.take_of_length_le hk, ← hdisk] at hc
        exact ⟨_, .failed hrun hk hrep' (hrep'.crashed hc)⟩

/-- A database that the engine represents has the tables that are committed. -/
theorem SqlEngine.Rep.tables_unique {db' : Database} (h : e.Rep db) (h' : e.Rep db') : db.tables = db'.tables :=
  SortedMap.ext_entries (h.shows_committed.symm.trans h'.shows_committed)

/-- Crashes while the file is opened leave the same tables. -/
theorem Left.recovers (h : Left d d') : ∃ d₁, d.Crashed d₁ ∧ ∀ m, Recovers d₁ m → Recovers d' m := by
  induction h with
  | crash hc => exact ⟨_, hc, fun _ hm => hm⟩
  | again k _ hc ih =>
    obtain ⟨d₁, hcrashed, hkeeps⟩ := ih
    refine ⟨d₁, hcrashed, fun m hm => ?_⟩
    obtain ⟨commits, hstored, htables⟩ := hkeeps m hm
    obtain ⟨ops, inner, r, hopen, -, -, -, hcrash⟩ := hstored.open
    rw [hopen] at hc
    exact ⟨commits, hcrash k _ hc, htables⟩

theorem recoversScript_left (statements : List Statement) (hrep : e.Rep db)
    (hleft : Left (e.disk.runOps ((e.scriptOps statements).take k)) d') :
    ∃ n, RecoversScript e statements k d' n := by
  obtain ⟨d₁, hc, hkeeps⟩ := hleft.recovers
  obtain ⟨n, hn⟩ := recoversScript statements hrep hc
  obtain ⟨db', hrep', hrecovers⟩ := hn.recovers
  exact ⟨n, hn.le, ⟨db', hrep', hkeeps _ hrecovers⟩, hn.complete, hn.begun⟩

end Crash

/-! ## Runs with crashes -/

/-- The engines that can come about: a new one, and from there by scripts, and by opening the file again, as
    it is or as crashes in the middle of a script have left it. -/
inductive SqlEngine.Arises : SqlEngine → Prop
  | opened {e} : SqlEngine.open (fun _ => none) = .ok e → Arises e
  | executed {e} (source : String) : Arises e → Arises ((execute source).run e).2
  | reopened {e e'} : Arises e → SqlEngine.open e.disk = .ok e' → Arises e'
  | crashed {e d e'} {source : String} {statements : List Statement} {k : ℕ} : Arises e →
      parse source = .ok statements → Left (e.disk.runOps ((e.scriptOps statements).take k)) d →
      SqlEngine.open d = .ok e' → Arises e'

section Runs
variable {e : SqlEngine} {db : Database} {k : ℕ} {d : Disk Unit}

theorem execute_ok {source : String} {statements : List Statement} (hparse : parse source = .ok statements) :
    (SqlEngine.execute source).run e = (SqlEngine.executeAll statements).run e := by
  rw [SqlEngine.execute, hparse]
  rfl

theorem execute_error {source : String} {fault : Fault} (hparse : parse source = .error fault) :
    (SqlEngine.execute source).run e = (.error fault, e) := by
  rw [SqlEngine.execute, hparse]
  rfl

/-- An engine that is opened from what is left. -/
theorem Recovers.rep {m : Tables} {e' : SqlEngine} (h : Recovers d m) (hopen : SqlEngine.open d = .ok e') :
    ∃ next commitTs, e'.Rep ⟨m, none, next, commitTs⟩ := by
  obtain ⟨commits, hstored, htables⟩ := h
  obtain ⟨ops, inner, r, hopened, hinner, hnext, hlog, -⟩ := hstored.open
  rw [SqlEngine.open, hopened] at hopen
  cases hopen
  exact ⟨inner.nextTxn, inner.commitTs, rep_opened hinner hnext hlog htables⟩

/-- **Every engine that can come about**, also by crashes, represents a sound database. -/
theorem SqlEngine.Arises.sound (h : e.Arises) : ∃ db c, e.Rep db ∧ db.IsSound c := by
  induction h with
  | opened hopen =>
    obtain ⟨e', hopen', hrep⟩ := open_new
    rw [hopen] at hopen'
    cases hopen'
    exact ⟨_, .none, hrep, sound_empty, .none⟩
  | @executed e source _ ih =>
    obtain ⟨db, c, hrep, hsound⟩ := ih
    rcases hparse : parse source with fault | statements
    · rw [execute_error hparse]
      exact ⟨db, c, hrep, hsound⟩
    · rw [execute_ok hparse]
      obtain ⟨db', hrep', hsound'⟩ := executeAll_sound (parse_named hparse) hrep hsound
      exact ⟨db', _, hrep', hsound'⟩
  | reopened _ hopen ih =>
    obtain ⟨db, c, hrep, hsound⟩ := ih
    obtain ⟨e', next, hopen', hrep'⟩ := hrep.reopen (Or.inl rfl)
    rw [hopen] at hopen'
    cases hopen'
    exact ⟨_, ⟨c.committed, none⟩, hrep', hsound.committed, .none⟩
  | @crashed e d e' source statements k _ hparse hleft hopen ih =>
    obtain ⟨db, c, hrep, hsound⟩ := ih
    obtain ⟨n, hn⟩ := recoversScript_left statements hrep hleft
    obtain ⟨db₁, hrep₁, hrecovers⟩ := hn.recovers
    have hnamed : ∀ s ∈ statements.take n, s.Named := fun s hs => parse_named hparse s (List.mem_of_mem_take hs)
    obtain ⟨db₂, hrep₂, hsound₂⟩ := executeAll_sound hnamed hrep hsound
    obtain ⟨next, commitTs, hrep'⟩ := hrecovers.rep hopen
    have hcommitted := hsound₂.committed
    rw [hrep₂.tables_unique hrep₁] at hcommitted
    exact ⟨_, ⟨_, none⟩, hrep', hcommitted, .none⟩

/-- **What is stored**, whenever there was a crash: every entry is the schema of a table, or a row of one, and
    every table is stored as a whole. -/
theorem arises_stored (h : e.Arises) :
    (∀ table schema, e.HasTable table schema → StoredTable e.visible table schema) ∧
    ∀ key text, (key, text) ∈ e.visible → (∃ table schema, key = catalogKey table ∧ e.HasTable table schema) ∨
      ∃ table schema row, e.HasTable table schema ∧ rowKey schema row = .ok key ∧ decodeRow text schema = .ok row := by
  obtain ⟨db, c, hrep, hsound⟩ := h.sound
  have hvis := hsound.visible
  have hhas : ∀ {table schema}, c.visible table = some schema → e.HasTable table schema := by
    intro table schema hs
    obtain ⟨hv, rfl⟩ := hvis.valid hs
    refine ⟨encodeSchema schema, ?_, decodeSchema_encodeSchema hv⟩
    rw [hrep.visible, SortedMap.mem_entries, hvis.catalog, hs]
    rfl
  rw [hrep.visible]
  refine ⟨fun table schema ht => ?_, fun key text hmem => ?_⟩
  · obtain ⟨text, hmem, hdec⟩ := ht
    rw [hrep.visible, SortedMap.mem_entries, hvis.catalog] at hmem
    obtain ⟨schema', hs, rfl⟩ := Option.map_eq_some_iff.1 hmem
    obtain ⟨hv, rfl⟩ := hvis.valid hs
    rw [decodeSchema_encodeSchema hv] at hdec
    obtain rfl := Except.ok.inj hdec
    exact hvis.stored hs
  · have hget := SortedMap.mem_entries.1 hmem
    rcases hvis.entry hget with ⟨table, rfl⟩ | ⟨table, schema, row, hs, hrow, rfl⟩
    · rw [hvis.catalog] at hget
      obtain ⟨schema, hs, -⟩ := Option.map_eq_some_iff.1 hget
      exact Or.inl ⟨table, schema, rfl, hhas hs⟩
    · have hne := (Schema.validate_eq_ok.1 (hvis.valid hs).1.validated).1
      exact Or.inr ⟨table, schema, row, hhas hs, hrow.key, decodeRow_encodeRow hrow.fits hne⟩

/-- A table and its row in an open transaction. -/
theorem arises_stored_items :
    StoredTable ((SqlEngine.execute itemsScript).run .fresh).2.visible "ITEMS" itemsSchema := by
  refine (arises_stored (.executed itemsScript (.opened SqlEngine.open_fresh))).1 "ITEMS" itemsSchema
    ⟨encodeSchema itemsSchema, ?_, ?_⟩
  · decide +kernel
  · decide +kernel

end Runs

end NutDb.Sql
