/-
  The engine without its store.

  A `Database` is what the engine is for: the tables as committed, and a copy of
  them as the open transaction has left it.  It runs the same code on plain maps
  (`Tables`).  The main result is that the engine does what the database does
  (`executeAll_simulates`): the results are the same, and so is what the next
  statement reads.  The engine also fails when it runs out of transaction ids or
  of commit timestamps, and so does the database.
-/
import NutDb.Sql.Engine
import NutDb.Mvcc.Scan

namespace NutDb.Sql

open Lib Mvcc

/-! ## Tables -/

/-- All entries of a store. -/
abbrev Tables := SortedMap String String

/-- Why the log refuses a record, if it does. -/
def refusal (record : TxnRecord) : Option Fault :=
  match appendRecord record with
  | .ok _ => none
  | .error e => some (txnError e)

/-- A change of the tables whose record is logged. -/
def Tables.change (record : TxnRecord) (changed : Tables) : Act Tables Unit := fun m =>
  match refusal record with
  | none => (.ok (), changed)
  | some fault => (.error fault, m)

instance : Txn Tables where
  get key m := (.ok (m.get key), m)
  scanPrefix pre m := (.ok (m.entries.filter fun e => startsWith e.1 pre), m)
  set key value m := Tables.change (.set 0 key value) (m.insert key value) m
  delete key m := Tables.change (.delete 0 key) (m.erase key) m

section Tables
variable (m : Tables) (key value : String)

theorem get_run : (Txn.get key : Act Tables (Option String)).run m = (.ok (m.get key), m) := rfl

theorem set_run : (Txn.set key value : Act Tables Unit).run m =
    ((refusal (.set 0 key value)).elim (.ok ()) .error,
      (refusal (.set 0 key value)).elim (m.insert key value) fun _ => m) := by
  change Tables.change (.set 0 key value) _ m = _
  unfold Tables.change
  cases refusal (.set 0 key value) <;> rfl

theorem delete_run : (Txn.delete key : Act Tables Unit).run m =
    ((refusal (.delete 0 key)).elim (.ok ()) .error,
      (refusal (.delete 0 key)).elim (m.erase key) fun _ => m) := by
  change Tables.change (.delete 0 key) _ m = _
  unfold Tables.change
  cases refusal (.delete 0 key) <;> rfl

end Tables

/-! ## The database -/

/-- The committed tables, those of the open transaction, and how many transactions there were. -/
structure Database where
  tables : Tables
  active : Option Tables
  nextTxn : U64
  commitTs : U64

namespace Database

/-- A transaction begins: it sees the committed tables. -/
def beginTxn (db : Database) : Res Tables × Database :=
  match db.nextTxn.checkedAdd 1 with
  | none => (Mvcc.invalid "mvcc: transaction id exhausted", db)
  | some next => (.ok db.tables, { db with nextTxn := next })

/-- The open transaction is committed. -/
def commitTxn (db : Database) (m : Tables) : Res Unit × Database :=
  match db.commitTs.checkedAdd 1 with
  | none => (Mvcc.invalid "mvcc: commit timestamp exhausted", { db with active := none })
  | some timestamp => (.ok (), { db with tables := m, active := none, commitTs := timestamp })

/-- `with_transaction`. -/
def withTransaction {α : Type} (operation : Act Tables α) : Act Database α := fun db =>
  match db.active with
  | some m =>
    match operation.run m with
    | (result, m) => (result, { db with active := some m })
  | none =>
    match db.beginTxn with
    | (.error fault, db) => (.error fault, db)
    | (.ok m, db) =>
      match operation.run m with
      | (.ok result, m) =>
        match db.commitTxn m with
        | (.ok (), db) => (.ok result, db)
        | (.error fault, db) => (.error fault, db)
      | (.error fault, _) => (.error fault, db)

/-- The statement `BEGIN`. -/
def beginStatement : Act Database SqlResult := fun db =>
  match db.active with
  | some _ => (input "sql: transaction already active", db)
  | none =>
    match db.beginTxn with
    | (.ok m, db) => (.ok .begun, { db with active := some m })
    | (.error fault, db) => (.error fault, db)

/-- The statement `COMMIT`. -/
def commitStatement : Act Database SqlResult := fun db =>
  match db.active with
  | none => (input "sql: no active transaction", db)
  | some m =>
    match db.commitTxn m with
    | (.ok (), db) => (.ok .committed, db)
    | (.error fault, db) => (.error fault, db)

/-- The statement `ROLLBACK`. -/
def rollbackStatement : Act Database SqlResult := fun db =>
  match db.active with
  | none => (input "sql: no active transaction", db)
  | some _ => (.ok .rolledBack, { db with active := none })

/-- `execute_statement`. -/
def executeStatement : Statement → Act Database SqlResult
  | .begin => beginStatement
  | .commit => commitStatement
  | .rollback => rollbackStatement
  | other => withTransaction (executeData other)

/-- The loop of `execute`. -/
def executeAll : List Statement → Act Database (List SqlResult)
  | [] => pure []
  | statement :: statements => do
    let result ← executeStatement statement
    let results ← executeAll statements
    return result :: results

/-- What the next statement reads. -/
def visible (db : Database) : Tables := db.active.getD db.tables

end Database

/-! ## Code on two transactions -/

/-- The operations of two transactions do the same, from related states. -/
structure TxnSimulates {σ τ : Type} [Txn σ] [Txn τ] (R : σ → τ → Prop) : Prop where
  get : ∀ key, Act.Simulates R (Txn.get key) (Txn.get key)
  scanPrefix : ∀ pre, Act.Simulates R (Txn.scanPrefix pre) (Txn.scanPrefix pre)
  set : ∀ key value, Act.Simulates R (Txn.set key value) (Txn.set key value)
  delete : ∀ key, Act.Simulates R (Txn.delete key) (Txn.delete key)

namespace TxnSimulates

variable {σ τ : Type} [Txn σ] [Txn τ] {R : σ → τ → Prop}

open Act

theorem loadSchema (h : TxnSimulates R) (table : String) :
    Simulates R (loadSchema table) (loadSchema table) := by
  refine simulates_bind (h.get _) fun encoded => ?_
  cases encoded with
  | none => exact simulates_lift _
  | some encoded => exact simulates_lift _

theorem allRows (h : TxnSimulates R) (schema : Schema) :
    Simulates R (allRows schema) (allRows schema) :=
  simulates_bind (h.scanPrefix _) fun _ => simulates_lift _

theorem accessRows (h : TxnSimulates R) (schema : Schema) (access : Access) :
    Simulates R (accessRows schema access) (accessRows schema access) := by
  cases access with
  | fullScan => exact simulates_bind (h.allRows schema) fun _ => simulates_pure _
  | primaryKey value =>
    refine simulates_ite (simulates_pure _) (simulates_bind (simulates_lift _) fun key => ?_)
    refine simulates_bind (h.get key) fun encoded => ?_
    cases encoded with
    | none => exact simulates_pure _
    | some encoded => exact simulates_bind (simulates_lift _) fun _ => simulates_pure _

theorem selectWith (h : TxnSimulates R) (access : Schema → Res Access) (select : Select) :
    Simulates R (selectWith access select) (selectWith access select) :=
  simulates_bind (h.loadSchema _) fun schema => simulates_bind (simulates_lift _) fun access =>
    simulates_bind (h.accessRows schema access) fun _ => simulates_lift _

theorem insert (h : TxnSimulates R) (table : String) (columns : List String) (values : List Value) :
    Simulates R (insert table columns values) (insert table columns values) := by
  refine simulates_bind (h.loadSchema table) fun schema => ?_
  refine simulates_ite (simulates_lift _) ?_
  refine simulates_bind (simulates_lift _) fun row => ?_
  refine simulates_bind (simulates_lift _) fun key => ?_
  refine simulates_bind (h.get key) fun found => ?_
  exact simulates_ite (simulates_lift _) (simulates_bind (h.set _ _) fun _ => simulates_pure _)

theorem updateRow (h : TxnSimulates R) (schema : Schema) (assignments : List (String × Value))
    (key : String) (row : Row) :
    Simulates R (updateRow schema assignments key row) (updateRow schema assignments key row) := by
  refine simulates_bind (simulates_lift _) fun row => ?_
  refine simulates_bind (simulates_lift _) fun newKey => ?_
  refine simulates_ite ?_ (h.set _ _)
  refine simulates_bind (h.get newKey) fun found => ?_
  exact simulates_ite (simulates_lift _) (simulates_bind (h.delete _) fun _ => h.set _ _)

omit [Txn σ] [Txn τ] in
theorem forMatching {schema : Schema} {filter : Option Expr} {body : String → Row → Act σ Unit}
    {body' : String → Row → Act τ Unit} (hbody : ∀ key row, Simulates R (body key row) (body' key row))
    (rows : List (String × Row)) (affected : ℕ) :
    Simulates R (forMatching schema filter body rows affected)
      (forMatching schema filter body' rows affected) := by
  induction rows generalizing affected with
  | nil => exact simulates_pure _
  | cons e rows ih =>
    refine simulates_bind (simulates_lift _) fun kept => ?_
    exact simulates_ite (simulates_bind (hbody _ _) fun _ => ih _) (ih _)

theorem createTable (h : TxnSimulates R) (table : String) (columns : List ColumnDef) :
    Simulates R (createTable table columns) (createTable table columns) := by
  refine simulates_bind (simulates_lift _) fun _ => ?_
  refine simulates_bind (h.get _) fun found => ?_
  refine simulates_ite (simulates_lift _) (simulates_bind ?_ fun _ => simulates_pure _)
  exact simulates_bind (simulates_lift _) fun _ => h.set _ _

/-- **Statements** do the same. -/
theorem executeData (h : TxnSimulates R) (statement : Statement) :
    Simulates R (executeData statement) (executeData statement) := by
  cases statement with
  | createTable table columns => exact h.createTable table columns
  | insert table columns values => exact h.insert table columns values
  | select select => exact h.selectWith _ select
  | update table assignments filter =>
    exact simulates_bind (h.loadSchema table) fun schema => simulates_bind (h.allRows schema) fun rows =>
      forMatching (h.updateRow schema assignments) rows 0
  | delete table filter =>
    exact simulates_bind (h.loadSchema table) fun schema => simulates_bind (h.allRows schema) fun rows =>
      forMatching (fun key _ => h.delete key) rows 0
  | explain select =>
    exact simulates_bind (h.loadSchema _) fun schema => simulates_bind (simulates_lift _) fun _ =>
      simulates_pure _
  | begin => exact simulates_lift _
  | commit => exact simulates_lift _
  | rollback => exact simulates_lift _

end TxnSimulates

/-! ## The engine does what the database does -/

theorem refusal_eq (record : TxnRecord) : refusal record =
    match record.encode with
    | .error fault => some fault
    | .ok payload =>
      if Wal.Fits payload then none else some (.io ⟨.invalidInput, "wal: record exceeds 4 GiB"⟩) := by
  unfold refusal appendRecord
  rcases record.encode with fault | payload
  · rfl
  · by_cases hfit : Wal.Fits payload
    · simp only [Res.ok_bind, Wal.append_of_fits hfit, if_pos hfit]
      rfl
    · simp only [Res.ok_bind, Wal.append, if_neg hfit]
      rfl

theorem refusal_eq_none {record : TxnRecord} : refusal record = none ↔ record.Loggable := by
  rw [refusal_eq, TxnRecord.Loggable]
  rcases record.encode with fault | payload
  · simp
  · simp

/-- Only the length of a record matters. -/
theorem refusal_congr {record record' : TxnRecord}
    (h : record.encode.map List.length = record'.encode.map List.length) :
    refusal record = refusal record' := by
  rw [refusal_eq, refusal_eq]
  rcases h1 : record.encode with fault | payload
  · rcases h2 : record'.encode with fault' | payload'
    · rw [h1, h2] at h
      cases h
      rfl
    · rw [h1, h2] at h
      cases h
  · rcases h2 : record'.encode with fault' | payload'
    · rw [h1, h2] at h
      cases h
    · rw [h1, h2] at h
      have hlen : payload.length = payload'.length := Except.ok.inj h
      simp only [Wal.Fits, hlen]

/-- The record of a write is refused in every transaction or in none. -/
theorem refusal_writeRecord (txn txn' : U64) (key : String) (value : Option String) :
    refusal (writeRecord txn key value) = refusal (writeRecord txn' key value) := by
  refine refusal_congr ?_
  cases value with
  | none =>
    simp only [writeRecord, TxnRecord.encode]
    rcases putString key with e | k
    · rfl
    · simp [Except.map]
  | some value =>
    simp only [writeRecord, TxnRecord.encode]
    rcases putString key with e | k
    · rfl
    · rcases putString value with e | v
      · rfl
      · simp [Except.map]

/-- The transactions of an engine, as those of a system with one handle. -/
def handles (active : Option Transaction) : ℕ → Option Transaction := Function.update noTxns 0 active

@[simp] theorem handles_zero (active : Option Transaction) : handles active 0 = active :=
  Function.update_self ..

@[simp] theorem update_handles (active active' : Option Transaction) :
    Function.update (handles active) 0 active' = handles active' := Function.update_idem ..

theorem handles_none : handles none = noTxns := Function.update_eq_self_iff.2 rfl

/-- A session on a store with the given memory and commits that reads the tables `m`, and whose
    snapshot is the newest. -/
structure Session.Shows (inner : Inner) (commits : List Writes) (s : Session) (m : Tables) : Prop where
  inner_eq : s.inner = inner
  inv : Inv ⟨s.disk, some s.inner, handles (some s.txn)⟩ commits []
  snapshot : s.txn.snapshot.val = commits.length
  views : s.txn.Views s.inner m

section Session
variable {inner : Inner} {commits : List Writes} {s : Session} {m : Tables}

/-- The transaction is open, and its writes are sorted. -/
theorem Session.Shows.opened (h : s.Shows inner commits m) :
    s.txn.finished = false ∧ SortedKeys s.txn.writes := by
  obtain ⟨r, hlog, hm⟩ := h.inv
  have ho := hm.opened 0 s.txn (handles_zero _)
  exact ⟨ho.unfinished, (hlog.inv.pending _ _ ho.pending).1⟩

/-- **A write** of a session. -/
theorem Session.Shows.write (h : s.Shows inner commits m) (key : String) (value : Option String) :
    (s.wrote (s.txn.write (writeRecord s.txn.id key value) key value)).1 =
      ((refusal (writeRecord 0 key value)).elim (.ok ()) .error : Res Unit) ∧
    (s.wrote (s.txn.write (writeRecord s.txn.id key value) key value)).2.Shows inner commits
      ((refusal (writeRecord 0 key value)).elim (value.elim (m.erase key) (m.insert key)) fun _ => m) := by
  obtain ⟨hopen, -⟩ := h.opened
  rw [refusal_writeRecord 0 s.txn.id]
  rcases appendRecord_cases (writeRecord s.txn.id key value) with ⟨hl, happ⟩ | ⟨e, happ⟩
  · rw [refusal_eq_none.2 hl]
    simp only [Transaction.write, ensureOpen_ok hopen, happ, Session.wrote, Option.elim_none]
    refine ⟨rfl, h.inner_eq, ?_, h.snapshot, fun k => ?_⟩
    · obtain ⟨r, hlog, hm⟩ := h.inv
      have ht := handles_zero (some s.txn)
      have hb := (hm.opened 0 s.txn ht).begun
      have hm' := hm.write (h := 0) ht key value
      simp only [update_handles] at hm'
      exact ⟨_, hlog.write (isWrite_writeRecord _ _ _) hl (replayRecord_writeRecord hb key value), hm'⟩
    · have hk := h.views k
      simp only [lookup_insertEntry]
      cases value with
      | none =>
        simp only [Option.elim_none, SortedMap.get_erase]
        split_ifs
        · rfl
        · exact hk
      | some value =>
        simp only [Option.elim_some, SortedMap.get_insert]
        split_ifs
        · rfl
        · exact hk
  · have hrefused : refusal (writeRecord s.txn.id key value) = some (txnError e) := by
      rw [refusal, happ]
    rw [hrefused]
    simp only [Transaction.write, ensureOpen_ok hopen, happ, Session.wrote, Option.elim_some]
    exact ⟨rfl, h.inner_eq, h.inv, h.snapshot, h.views⟩

/-- **The operations of a session** are those of the tables that it shows. -/
theorem session_simulates (inner : Inner) (commits : List Writes) :
    TxnSimulates (Session.Shows inner commits) where
  get key s m h := by
    refine ⟨?_, h⟩
    change txnResult (s.txn.get s.inner key) = .ok (m.get key)
    rw [h.views.get h.opened.1]
    rfl
  scanPrefix pre s m h := by
    refine ⟨?_, h⟩
    change txnResult (s.txn.scanPrefix s.inner pre) = .ok (m.entries.filter fun e => startsWith e.1 pre)
    rw [h.views.scanPrefix h.opened.1 h.opened.2]
    rfl
  set key value s m h := by
    have hw := h.write key (some value)
    rw [set_run]
    exact hw
  delete key s m h := by
    have hw := h.write key none
    rw [delete_run]
    exact hw

end Session

/-- The committed tables and the counters of the database are those of the store. -/
structure Database.Based (db : Database) (inner : Inner) (commits : List Writes) : Prop where
  tables : ∀ key, db.tables.get key = valueAfter commits key
  nextTxn : db.nextTxn = inner.nextTxn
  commitTs : db.commitTs = inner.commitTs

/-- **The engine represents the database.** -/
inductive SqlEngine.Rep : SqlEngine → Database → Prop
  | idle {disk inner commits db} : db.active = none → db.Based inner commits →
      Inv ⟨disk, some inner, handles none⟩ commits [] → Rep ⟨disk, inner, none⟩ db
  | busy {s : Session} {commits db m} : db.active = some m → db.Based s.inner commits →
      s.Shows s.inner commits m → Rep ⟨s.disk, s.inner, some s.txn⟩ db

section Rep
variable {disk : Disk Unit} {inner : Inner} {commits : List Writes} {e : SqlEngine} {db : Database}
  {s : Session} {m : Tables}

theorem inv_forget {sys : System} {ids : List U64} (h : Inv sys commits ids) : Inv sys commits [] := by
  rcases sys with ⟨d, _ | inner, txns⟩
  · obtain ⟨R, r, hl, hr, -⟩ := h
    exact ⟨R, r, hl, hr, by simp⟩
  · obtain ⟨r, hlog, hm⟩ := h
    exact ⟨r, ⟨hlog.replayed, by simp⟩, hm⟩

/-- No key has changed after the newest commit. -/
theorem latestChange_le {low : ℕ} {versions : Versions} (h : MapReads low commits versions)
    (key : String) : (latestChange versions key).val ≤ commits.length := by
  have hreads := h.reads key
  rw [chainOf] at hreads
  unfold latestChange
  rcases hl : versions.lookup key with _ | chain
  · simp
  · rw [hl, Option.getD_some] at hreads
    rcases hlast : chain.getLast? with _ | v
    · simp [hlast]
    · obtain ⟨h1, h2⟩ := hreads.old v (List.mem_of_getLast? hlast)
      simp only [Option.bind_some, hlast, Option.map_some, Option.getD_some, Version.lastModified]
      rcases hd : v.deletedAt with _ | d
      · simpa [hd] using h1
      · rw [Option.getD_some]
        rcases max_choice d v.createdAt with hm | hm
        · rw [hm]
          exact h2 d hd
        · rw [hm]
          exact h1

/-- What the newest snapshot shows. -/
theorem getAt_newest {txns : ℕ → Option Transaction} (hinv : Inv ⟨disk, some inner, txns⟩ commits [])
    {snapshot : U64} (hsnap : snapshot.val = commits.length) (key : String) :
    inner.getAt key snapshot = valueAfter commits key := by
  obtain ⟨r, -, hm⟩ := hinv
  obtain ⟨low, hreads, hlow, -⟩ := hm.reads
  rw [Inner.getAt, hreads.visibleValue (by omega) (by omega), hsnap, List.take_length]

theorem commitTs_eq {txns : ℕ → Option Transaction} (hinv : Inv ⟨disk, some inner, txns⟩ commits []) :
    inner.commitTs.val = commits.length := (hinv.shows).1

/-- **A transaction begins**, in the engine and in the database. -/
theorem begin_simulates (hbased : db.Based inner commits)
    (hinv : Inv ⟨disk, some inner, handles none⟩ commits []) :
    (∃ fault, SqlEngine.beginTxn ⟨disk, inner, none⟩ = (.error fault, ⟨disk, inner, none⟩) ∧
      db.beginTxn = (.error fault, db)) ∨
    ∃ (s : Session) (next : U64), SqlEngine.beginTxn ⟨disk, inner, none⟩ = (.ok s.txn, ⟨s.disk, s.inner, none⟩) ∧
      db.beginTxn = (.ok db.tables, { db with nextTxn := next }) ∧
      Database.Based { db with nextTxn := next } s.inner commits ∧ s.Shows s.inner commits db.tables := by
  unfold Database.beginTxn
  rw [hbased.nextTxn]
  rcases hn : inner.nextTxn.checkedAdd 1 with _ | next
  · refine Or.inl ⟨_, ?_, rfl⟩
    simp only [SqlEngine.beginTxn, Inner.begin, hn]
    rfl
  · have hbegin : inner.begin =
        ([.append (Wal.frame (TxnRecord.begin inner.nextTxn inner.commitTs).payload), .sync],
          .ok { id := inner.nextTxn, snapshot := inner.commitTs },
          { inner with nextTxn := next, active := insertEntry inner.nextTxn inner.commitTs inner.active }) := by
      simp only [Inner.begin, hn, appendRecord_of_loggable (TxnRecord.loggable_begin _ _)]
      rfl
    have hissued : Inv ⟨disk, some inner, handles none⟩ commits (issued []) := hinv
    obtain ⟨-, commits', hext, hinv'⟩ := step_inv hissued (.began (h := 0) hbegin rfl)
    obtain rfl : commits' = commits := hext
    rw [update_handles] at hinv'
    refine Or.inr ⟨⟨disk.runOps (onLog [.append (Wal.frame (TxnRecord.begin inner.nextTxn
        inner.commitTs).payload), .sync]),
        { inner with nextTxn := next, active := insertEntry inner.nextTxn inner.commitTs inner.active },
        { id := inner.nextTxn, snapshot := inner.commitTs }⟩, next, ?_, rfl,
      ⟨hbased.tables, rfl, hbased.commitTs⟩, rfl, inv_forget hinv', commitTs_eq hinv, fun key => ?_⟩
    · simp only [SqlEngine.beginTxn, hbegin]
      rfl
    · rw [hbased.tables]
      exact (getAt_newest hinv (commitTs_eq hinv) key).symm

/-- A call that ends the transaction keeps the invariant. -/
theorem finish_inv (hs : s.Shows s.inner commits m) (call : Call) {out : Outcome}
    (hrun : call.run s.txn s.inner = out) (htxn : out.txn = none) :
    ∃ commits', Extends ⟨s.disk, some s.inner, handles (some s.txn)⟩ (.called 0 call out.result)
        commits commits' ∧
      Inv ⟨s.disk.runOps (onLog out.ops), some out.inner, handles none⟩ commits' [] := by
  have hissued : Inv ⟨s.disk, some s.inner, handles (some s.txn)⟩ commits (issued []) := hs.inv
  obtain ⟨-, commits', hext, hinv⟩ := step_inv hissued
    (.called (h := 0) call (handles_zero (some s.txn)))
  rw [hrun] at hext hinv
  rw [htxn, update_handles] at hinv
  exact ⟨commits', hext, inv_forget hinv⟩

/-- **A transaction is committed**, in the engine and in the database. -/
theorem commit_simulates (hbased : db.Based s.inner commits) (hs : s.Shows s.inner commits m) :
    (SqlEngine.finish ⟨s.disk, s.inner, none⟩ s.txn .commit).1 = (db.commitTxn m).1 ∧
    (SqlEngine.finish ⟨s.disk, s.inner, none⟩ s.txn .commit).2.Rep (db.commitTxn m).2 := by
  have hopen := hs.opened.1
  -- no other transaction has committed since this one began
  have hfind : s.txn.writes.find? (fun w => decide (latestChange s.inner.versions w.1 > s.txn.snapshot)) =
      none := by
    obtain ⟨r, -, hm⟩ := hs.inv
    obtain ⟨low, hreads, -, -⟩ := hm.reads
    refine List.find?_eq_none.2 fun w _ => ?_
    have hle := latestChange_le hreads w.1
    have hsnap := hs.snapshot
    simp only [decide_eq_true_eq, gt_iff_lt, not_lt, Fin.le_def]
    omega
  unfold Database.commitTxn
  rw [hbased.commitTs]
  rcases hts : s.inner.commitTs.checkedAdd 1 with _ | ts
  · have hrun : Call.run s.txn s.inner .commit =
        ⟨[], liftIo (Mvcc.invalid "mvcc: commit timestamp exhausted"),
          { s.inner with active := eraseKey s.txn.id s.inner.active }, none⟩ := by
      simp only [Call.run, Transaction.commit, ensureOpen_ok hopen, hfind, hts, Transaction.drop, hopen]
      rfl
    obtain ⟨commits', hext, hinv⟩ := finish_inv hs .commit hrun rfl
    obtain rfl : commits' = commits := hext
    simp only [SqlEngine.finish, hrun]
    exact ⟨rfl, .idle rfl ⟨hbased.tables, hbased.nextTxn, rfl⟩ hinv⟩
  · have hrun : Call.run s.txn s.inner .commit =
        ⟨[.append (Wal.frame (TxnRecord.commit s.txn.id ts).payload), .sync], .ok (.timestamp ts),
          { s.inner with
            versions := applyVersions s.inner.versions s.txn.writes ts
            commitTs := ts
            active := eraseKey s.txn.id s.inner.active }, none⟩ := by
      simp only [Call.run, Transaction.commit, ensureOpen_ok hopen, hfind, hts,
        appendRecord_of_loggable (TxnRecord.loggable_commit s.txn.id ts)]
      rfl
    obtain ⟨commits', hext, hinv⟩ := finish_inv hs .commit hrun rfl
    obtain ⟨t, ht, rfl, -⟩ := hext
    obtain rfl : s.txn = t := Option.some.inj ((handles_zero (some s.txn)).symm.trans ht)
    simp only [SqlEngine.finish, hrun]
    refine ⟨rfl, .idle rfl ⟨fun key => ?_, hbased.nextTxn, rfl⟩ hinv⟩
    rw [hs.views key, valueAfter_concat, getAt_newest hs.inv hs.snapshot]

/-- **A transaction ends without effect.** -/
theorem abort_simulates (hbased : db.Based s.inner commits) (hs : s.Shows s.inner commits m)
    (hactive : db.active = none) {call : Call} (hcall : call = .abort ∨ call = .drop) :
    (SqlEngine.finish ⟨s.disk, s.inner, none⟩ s.txn call).1 = .ok () ∧
    (SqlEngine.finish ⟨s.disk, s.inner, none⟩ s.txn call).2.Rep db := by
  have hopen := hs.opened.1
  obtain ⟨ops, hrun⟩ : ∃ ops, call.run s.txn s.inner = ⟨ops, .ok .unit,
      { s.inner with active := eraseKey s.txn.id s.inner.active }, none⟩ := by
    rcases hcall with rfl | rfl
    · refine ⟨[.append (Wal.frame (TxnRecord.abort s.txn.id).payload), .sync], ?_⟩
      simp only [Call.run, Transaction.abort, ensureOpen_ok hopen, finishAborted_eq]
      rfl
    · refine ⟨[], ?_⟩
      simp only [Call.run, Transaction.drop, hopen]
      rfl
  obtain ⟨commits', hext, hinv⟩ := finish_inv hs call hrun rfl
  obtain rfl : commits' = commits := by
    rcases hcall with rfl | rfl
    · exact hext
    · exact hext
  simp only [SqlEngine.finish, hrun]
  exact ⟨rfl, .idle hactive ⟨hbased.tables, hbased.nextTxn, hbased.commitTs⟩ hinv⟩

theorem Session.Shows.self (h : s.Shows inner commits m) : s.Shows s.inner commits m :=
  ⟨rfl, h.inv, h.snapshot, h.views⟩

/-- **An operation in a transaction**, in the open one or in one of its own. -/
theorem withTransaction_simulates {α : Type} {operation : Act Session α} {operation' : Act Tables α}
    (h : ∀ inner commits, Act.Simulates (Session.Shows inner commits) operation operation') :
    Act.Simulates SqlEngine.Rep (SqlEngine.withTransaction operation)
      (Database.withTransaction operation') := by
  intro e db hrep
  cases hrep with
  | busy hactive hbased hs =>
    rename_i s commits m
    obtain ⟨hres, hs'⟩ := h s.inner commits s m hs
    simp only [Act.run, SqlEngine.withTransaction, Database.withTransaction, hactive] at hres hs' ⊢
    refine ⟨hres, .busy rfl ?_ hs'.self⟩
    rw [hs'.inner_eq]
    exact ⟨hbased.tables, hbased.nextTxn, hbased.commitTs⟩
  | idle hactive hbased hinv =>
    rename_i disk inner commits
    obtain ⟨fault, he, hdb⟩ | ⟨s, next, he, hdb, hbased', hs⟩ := begin_simulates hbased hinv
    · simp only [Act.run, SqlEngine.withTransaction, Database.withTransaction, hactive, he, hdb]
      exact ⟨trivial, .idle hactive hbased hinv⟩
    · obtain ⟨tables, active, nextTxn, commitTs⟩ := db
      obtain rfl : active = none := hactive
      obtain ⟨hres, hs'⟩ := h s.inner commits s tables hs
      simp only [Act.run, SqlEngine.withTransaction, Database.withTransaction, he, hdb] at hres hs' ⊢
      rcases hop : operation ⟨s.disk, s.inner, s.txn⟩ with ⟨result, s'⟩
      rcases hop' : operation' tables with ⟨result', m'⟩
      rw [hop, hop'] at hres hs'
      obtain rfl : result = result' := hres
      have hbased'' : Database.Based ⟨tables, none, next, commitTs⟩ s'.inner commits := by
        rw [hs'.inner_eq]
        exact hbased'
      cases result with
      | ok value =>
        obtain ⟨hfin, hrep⟩ := commit_simulates hbased'' hs'.self
        rcases hf : SqlEngine.finish ⟨s'.disk, s'.inner, none⟩ s'.txn .commit with ⟨r, e'⟩
        rcases hc : Database.commitTxn ⟨tables, none, next, commitTs⟩ m' with ⟨r', db'⟩
        rw [hf, hc] at hfin hrep
        obtain rfl : r = r' := hfin
        cases r with
        | ok u =>
          simp only [hf, hc]
          exact ⟨trivial, hrep⟩
        | error fault =>
          simp only [hf, hc]
          exact ⟨trivial, hrep⟩
      | error fault =>
        cases fault with
        | io error => exact ⟨rfl, (abort_simulates hbased'' hs'.self rfl (Or.inl rfl)).2⟩
        | panic p => exact ⟨rfl, (abort_simulates hbased'' hs'.self rfl (Or.inr rfl)).2⟩

theorem beginStatement_simulates : Act.Simulates SqlEngine.Rep SqlEngine.beginStatement
    Database.beginStatement := by
  intro e db hrep
  cases hrep with
  | busy hactive hbased hs =>
    rename_i s commits m
    simp only [Act.run, SqlEngine.beginStatement, Database.beginStatement, hactive]
    exact ⟨trivial, .busy hactive hbased hs⟩
  | idle hactive hbased hinv =>
    rename_i disk inner commits
    obtain ⟨fault, he, hdb⟩ | ⟨s, next, he, hdb, hbased', hs⟩ := begin_simulates hbased hinv
    · simp only [Act.run, SqlEngine.beginStatement, Database.beginStatement, hactive, he, hdb]
      exact ⟨trivial, .idle hactive hbased hinv⟩
    · simp only [Act.run, SqlEngine.beginStatement, Database.beginStatement, hactive, he, hdb]
      have hopened : Database.Based ⟨db.tables, some db.tables, next, db.commitTs⟩ s.inner commits :=
        ⟨hbased'.tables, hbased'.nextTxn, hbased'.commitTs⟩
      exact ⟨trivial, .busy rfl hopened hs⟩

theorem commitStatement_simulates : Act.Simulates SqlEngine.Rep
    (SqlEngine.finishStatement .commit .committed) Database.commitStatement := by
  intro e db hrep
  cases hrep with
  | busy hactive hbased hs =>
    rename_i s commits m
    obtain ⟨hfin, hrep⟩ := commit_simulates hbased hs
    simp only [Act.run, SqlEngine.finishStatement, Database.commitStatement, hactive]
    rcases hf : SqlEngine.finish ⟨s.disk, s.inner, some s.txn⟩ s.txn .commit with ⟨r, e'⟩
    rcases hc : db.commitTxn m with ⟨r', db'⟩
    rw [show SqlEngine.finish ⟨s.disk, s.inner, none⟩ s.txn .commit = _ from hf, hc] at hfin hrep
    obtain rfl : r = r' := hfin
    cases r with
    | ok u => exact ⟨rfl, hrep⟩
    | error fault => exact ⟨rfl, hrep⟩
  | idle hactive hbased hinv =>
    simp only [Act.run, SqlEngine.finishStatement, Database.commitStatement, hactive]
    exact ⟨trivial, .idle hactive hbased hinv⟩

theorem rollbackStatement_simulates : Act.Simulates SqlEngine.Rep
    (SqlEngine.finishStatement .abort .rolledBack) Database.rollbackStatement := by
  intro e db hrep
  cases hrep with
  | busy hactive hbased hs =>
    rename_i s commits m
    have hended : Database.Based ⟨db.tables, none, db.nextTxn, db.commitTs⟩ s.inner commits :=
      ⟨hbased.tables, hbased.nextTxn, hbased.commitTs⟩
    obtain ⟨hfin, hrep⟩ := abort_simulates hended hs rfl (Or.inl rfl)
    simp only [Act.run, SqlEngine.finishStatement, Database.rollbackStatement, hactive]
    rcases hf : SqlEngine.finish ⟨s.disk, s.inner, some s.txn⟩ s.txn .abort with ⟨r, e'⟩
    rw [show SqlEngine.finish ⟨s.disk, s.inner, none⟩ s.txn .abort = _ from hf] at hfin hrep
    obtain rfl : r = .ok () := hfin
    exact ⟨rfl, hrep⟩
  | idle hactive hbased hinv =>
    simp only [Act.run, SqlEngine.finishStatement, Database.rollbackStatement, hactive]
    exact ⟨trivial, .idle hactive hbased hinv⟩

/-- **Statements**: the engine does what the database does. -/
theorem executeStatement_simulates (statement : Statement) :
    Act.Simulates SqlEngine.Rep (SqlEngine.executeStatement statement)
      (Database.executeStatement statement) := by
  have hdata := withTransaction_simulates fun inner commits =>
    (session_simulates inner commits).executeData statement
  cases statement with
  | begin => exact beginStatement_simulates
  | commit => exact commitStatement_simulates
  | rollback => exact rollbackStatement_simulates
  | createTable table columns => exact hdata
  | insert table columns values => exact hdata
  | select select => exact hdata
  | update table assignments filter => exact hdata
  | delete table filter => exact hdata
  | explain select => exact hdata

/-- **Scripts**: the engine does what the database does. -/
theorem executeAll_simulates (statements : List Statement) :
    Act.Simulates SqlEngine.Rep (SqlEngine.executeAll statements) (Database.executeAll statements) := by
  induction statements with
  | nil => exact Act.simulates_pure _
  | cons statement statements ih =>
    exact Act.simulates_bind (executeStatement_simulates statement) fun result =>
      Act.simulates_bind ih fun results => Act.simulates_pure _

/-- What the engine shows is what the database has. -/
theorem SqlEngine.Rep.visible (h : e.Rep db) : e.visible = db.visible.entries := by
  have hall : ∀ m : Tables, (m.entries.filter fun e => startsWith e.1 "") = m.entries := fun m =>
    List.filter_eq_self.2 fun _ _ => startsWith_iff.2 List.nil_prefix
  cases h with
  | busy hactive hbased hs =>
    rename_i s commits m
    have hscan := hs.views.scanPrefix hs.opened.1 hs.opened.2 ""
    simp only [SqlEngine.visible, SqlEngine.reader, Option.getD_some, hscan, hall, Database.visible,
      hactive]
  | idle hactive hbased hinv =>
    rename_i disk inner commits
    have hviews : Transaction.Views { id := inner.nextTxn, snapshot := inner.commitTs } inner db.tables :=
      fun key => by
        rw [hbased.tables]
        exact (getAt_newest hinv (commitTs_eq hinv) key).symm
    have hscan := hviews.scanPrefix rfl List.Pairwise.nil ""
    simp only [SqlEngine.visible, SqlEngine.reader, Option.getD_none, hscan, hall, Database.visible,
      hactive]

/-! ## Opening the file again -/

/-- A log that is opened while nothing of it is lost. -/
theorem reopen_log {r : Replay} (h : Logging disk r commits []) : ∃ inner ops,
    openStore disk = (ops, .ok inner) ∧ inner = ⟨r.versions, [], inner.nextTxn, r.commitTs⟩ ∧
    inner.nextTxn.val = r.maxTxn.val + 1 ∧ Logging (disk.runOps ops) r commits [] := by
  obtain ⟨f, R, Q, hd, hf, hQ, hr⟩ := h.replayed
  obtain ⟨next, hnext⟩ : ∃ next, r.maxTxn.checkedAdd 1 = some next :=
    ⟨⟨r.maxTxn.val + 1, hr.inv.maxTxn⟩, U64.checkedAdd_eq_some.2 rfl⟩
  have hpayloads : (R ++ Q).map TxnRecord.payload =
      R.map TxnRecord.payload ++ Q.map TxnRecord.payload := List.map_append
  have hreplay : Wal.replayPath ((disk ()).map File.bytes) =
      ⟨(R ++ Q).map TxnRecord.payload, false, (Wal.frames ((R ++ Q).map TxnRecord.payload)).length⟩ := by
    rw [hd, Option.map_some, Wal.replayPath, hf.bytes, ← hpayloads,
      Wal.replay_frames (by rw [hpayloads]; exact hf.fits)]
  refine ⟨⟨r.versions, [], next, r.commitTs⟩, [.create ()], ?_, rfl, U64.checkedAdd_eq_some.1 hnext, ?_⟩
  · simp only [openStore, hreplay, hr.replayPayloads, hnext]
    rfl
  · refine ⟨⟨f, R, Q, ?_, hf, hQ, hr⟩, by simp⟩
    simp [DiskOp.run, hd]

theorem rep_opened {r : Replay} {ops : List (DiskOp Unit)}
    (hinner : inner = ⟨r.versions, [], inner.nextTxn, r.commitTs⟩)
    (hnext : inner.nextTxn.val = r.maxTxn.val + 1) (hlog : Logging (disk.runOps ops) r commits [])
    (htables : ∀ key, m.get key = valueAfter commits key) :
    SqlEngine.Rep ⟨disk.runOps ops, inner, none⟩ ⟨m, none, inner.nextTxn, inner.commitTs⟩ := by
  refine .idle rfl ⟨htables, rfl, rfl⟩ ⟨r, hlog, ?_⟩
  rw [handles_none, hinner]
  exact ⟨⟨0, hlog.inv.reads, Nat.zero_le _, by simp⟩, rfl, hnext, fun h t ht => (nomatch ht),
    fun h h' t t' ht => (nomatch ht)⟩

/-- **Opening the file again** gives the committed tables. -/
theorem SqlEngine.Rep.reopen (h : e.Rep db) (hdisk : disk = e.disk ∨ e.disk.Crashed disk) :
    ∃ e' next, SqlEngine.open disk = .ok e' ∧ e'.Rep ⟨db.tables, none, next, db.commitTs⟩ := by
  obtain ⟨commits, r, hbased, hlog, hts⟩ : ∃ commits r, db.Based e.inner commits ∧
      Logging e.disk r commits [] ∧ e.inner.commitTs.val = commits.length := by
    cases h with
    | busy hactive hbased hs =>
      obtain ⟨r, hlog, -⟩ := hs.inv
      exact ⟨_, r, hbased, hlog, commitTs_eq hs.inv⟩
    | idle hactive hbased hinv =>
      obtain ⟨r, hlog, -⟩ := id hinv
      exact ⟨_, r, hbased, hlog, commitTs_eq hinv⟩
  obtain ⟨inner, ops, r', hopen, hinner, hnext, hlog'⟩ : ∃ inner ops r', openStore disk = (ops, .ok inner) ∧
      inner = ⟨r'.versions, [], inner.nextTxn, r'.commitTs⟩ ∧ inner.nextTxn.val = r'.maxTxn.val + 1 ∧
      Logging (disk.runOps ops) r' commits [] := by
    rcases hdisk with rfl | hcrash
    · obtain ⟨inner, ops, hopen⟩ := reopen_log hlog
      exact ⟨inner, ops, r, hopen⟩
    · obtain ⟨ops, inner, r', hopen, hinner, hnext, hlog', -⟩ := (hlog.crashed hcrash).open
      exact ⟨inner, ops, r', hopen, hinner, hnext, hlog'⟩
  refine ⟨⟨disk.runOps ops, inner, none⟩, inner.nextTxn, by rw [SqlEngine.open, hopen], ?_⟩
  have hcommitTs : db.commitTs = inner.commitTs := by
    rw [hbased.commitTs]
    apply Fin.ext
    rw [hts, hinner]
    exact hlog'.inv.commitTs.symm
  rw [hcommitTs]
  exact rep_opened hinner hnext hlog' hbased.tables

/-- A new engine. -/
theorem open_new : ∃ e, SqlEngine.open (fun _ => none) = .ok e ∧ e.Rep ⟨.empty, none, 1, 0⟩ := by
  obtain ⟨ops, inner, r, hopen, hinner, hnext, hlog, -⟩ := Stored.open inv_initial
  have hval : openStore initial.disk = ([.create ()], .ok ⟨[], [], 1, 0⟩) := rfl
  rw [hval] at hopen
  cases hopen
  exact ⟨_, rfl, rep_opened hinner hnext hlog fun _ => rfl⟩

/-- **Every engine that can come about** represents a database. -/
theorem SqlEngine.Reached.rep (h : e.Reached) : ∃ db, e.Rep db := by
  induction h with
  | opened hopen =>
    obtain ⟨e', hopen', hrep⟩ := open_new
    rw [hopen] at hopen'
    cases hopen'
    exact ⟨_, hrep⟩
  | @executed e source hreached ih =>
    obtain ⟨db, hrep⟩ := ih
    rcases hparse : parse source with fault | statements
    · have hrun : (SqlEngine.execute source).run e = (.error fault, e) := by
        rw [SqlEngine.execute, hparse]
        rfl
      rw [hrun]
      exact ⟨db, hrep⟩
    · have hrun : (SqlEngine.execute source).run e = (SqlEngine.executeAll statements).run e := by
        rw [SqlEngine.execute, hparse]
        rfl
      rw [hrun]
      exact ⟨_, (executeAll_simulates statements e db hrep).2⟩
  | reopened hreached hdisk hopen ih =>
    obtain ⟨db, hrep⟩ := ih
    obtain ⟨e', next, hopen', hrep'⟩ := hrep.reopen hdisk
    rw [hopen] at hopen'
    cases hopen'
    exact ⟨_, hrep'⟩

theorem SqlEngine.Rep.nextTxn (h : e.Rep db) : e.inner.nextTxn = db.nextTxn := by
  cases h with
  | idle _ hbased _ => exact hbased.nextTxn.symm
  | busy _ hbased _ => exact hbased.nextTxn.symm

/-! ## Results -/

/-- A statement on tables can be executed: in the open transaction, or in a new one that can be
    committed. -/
def SqlEngine.Ready (e : SqlEngine) : Prop := e.active = none →
  (e.inner.nextTxn.checkedAdd 1).isSome = true ∧ (e.inner.commitTs.checkedAdd 1).isSome = true

/-- The database can execute a statement on tables. -/
def Database.Ready (db : Database) : Prop := db.active = none →
  (db.nextTxn.checkedAdd 1).isSome = true ∧ (db.commitTs.checkedAdd 1).isSome = true

theorem SqlEngine.Rep.ready (h : e.Rep db) : e.Ready ↔ db.Ready := by
  unfold SqlEngine.Ready Database.Ready
  cases h with
  | idle hactive hbased _ => simp only [hactive, hbased.nextTxn, hbased.commitTs]
  | busy hactive _ _ => simp [hactive]

theorem eq_add_one_of_checkedAdd {a b : U64} (h : a.checkedAdd 1 = some b) : b = a + 1 := by
  have hval := U64.checkedAdd_eq_some.1 h
  apply Fin.ext
  rw [Fin.val_add_one_of_lt' (by have := b.isLt; omega), hval]

/-- The database after an operation has changed the tables that it shows. -/
def Database.withVisible (db : Database) (m : Tables) : Database :=
  match db.active with
  | some _ => { db with active := some m }
  | none => { db with tables := m, nextTxn := db.nextTxn + 1, commitTs := db.commitTs + 1 }

@[simp] theorem Database.visible_withVisible (db : Database) (m : Tables) :
    (db.withVisible m).visible = m := by
  obtain ⟨tables, _ | active, nextTxn, commitTs⟩ := db <;> rfl

/-- **An operation in a transaction succeeds** when there can be one and it succeeds on what is
    visible. -/
theorem withTransaction_eq_ok {α : Type} {operation : Act Tables α} {a : α} {db' : Database} :
    (Database.withTransaction operation).run db = (.ok a, db') ↔
      db.Ready ∧ (operation.run db.visible).1 = .ok a ∧
        db' = db.withVisible (operation.run db.visible).2 := by
  obtain ⟨tables, active, nextTxn, commitTs⟩ := db
  cases active with
  | some m =>
    have hready : Database.Ready ⟨tables, some m, nextTxn, commitTs⟩ := fun h => (nomatch h)
    simp only [Act.run, Database.withTransaction, Database.visible, Option.getD_some,
      Database.withVisible, hready, true_and, Prod.mk.injEq]
    exact and_congr_right fun _ => eq_comm
  | none =>
    simp only [Act.run, Database.withTransaction, Database.beginTxn, Database.Ready, Database.visible,
      Option.getD_none, Database.withVisible, forall_const]
    rcases hn : nextTxn.checkedAdd 1 with _ | next
    · simp [Mvcc.invalid, Res.fail]
    rcases hop : operation tables with ⟨fault | result, m⟩
    · simp [hop]
    simp only [hop, Database.commitTxn]
    rcases hts : commitTs.checkedAdd 1 with _ | timestamp
    · simp [Mvcc.invalid, Res.fail]
    · simp only [eq_add_one_of_checkedAdd hn, eq_add_one_of_checkedAdd hts, Option.isSome_some, and_self, true_and,
        Prod.mk.injEq]
      exact and_congr_right fun _ => eq_comm

/-- The same for the engine. -/
theorem SqlEngine.Rep.withTransaction_eq_ok {α : Type} {operation : Act Session α}
    {operation' : Act Tables α} (hrep : e.Rep db)
    (h : ∀ inner commits, Act.Simulates (Session.Shows inner commits) operation operation') {a : α} :
    ((SqlEngine.withTransaction operation).run e).1 = .ok a ↔
      e.Ready ∧ (operation'.run db.visible).1 = .ok a := by
  obtain ⟨hres, -⟩ := withTransaction_simulates h e db hrep
  rw [hrep.ready, hres]
  constructor
  · intro hrun
    obtain ⟨hready, hok, -⟩ := Sql.withTransaction_eq_ok.1 (Prod.ext hrun rfl)
    exact ⟨hready, hok⟩
  · rintro ⟨hready, hok⟩
    rw [Sql.withTransaction_eq_ok.2 ⟨hready, hok, rfl⟩]

end Rep

end NutDb.Sql
