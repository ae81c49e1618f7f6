/-
  The SQL engine (`SqlEngine` of `src/sql/executor.rs`).

  The engine has a transactional store and at most one open transaction.  A
  statement outside of a transaction runs in one of its own, which is committed
  if the statement succeeds and aborted if it fails.

  `visible` is what the next statement reads: all entries, in the order of their
  keys.
-/
import NutDb.Sql.Executor
import NutDb.Sql.Parser
import NutDb.Mvcc.System

namespace NutDb.Sql

open Lib Mvcc

/-! ## Transactions -/

/-- `txn_error`. -/
def txnError : TxnError → Fault
  | .io fault => fault
  | e => .io ⟨.invalidInput, e.display⟩

/-- `map_err(txn_error)`. -/
def txnResult {α : Type} : TxnRes α → Res α
  | .ok a => .ok a
  | .error e => .error (txnError e)

/-- A transaction, with the store that it belongs to. -/
structure Session where
  disk : Disk Unit
  inner : Inner
  txn : Transaction

/-- What a write of a transaction has done. -/
def Session.wrote (s : Session) : List FileOp × TxnRes Unit × Transaction → Res Unit × Session
  | (ops, result, txn) => (txnResult result, { s with disk := s.disk.runOps (onLog ops), txn := txn })

instance : Txn Session where
  get key s := (txnResult (s.txn.get s.inner key), s)
  scanPrefix pre s := (txnResult (s.txn.scanPrefix s.inner pre), s)
  set key value s := s.wrote (s.txn.set key value)
  delete key s := s.wrote (s.txn.delete key)

/-! ## The engine -/

/-- `SqlEngine`. -/
structure SqlEngine where
  disk : Disk Unit
  inner : Inner
  active : Option Transaction

/-- `SqlEngine::open`. -/
def SqlEngine.open (d : Disk Unit) : Res SqlEngine :=
  match openStore d with
  | (ops, .ok inner) => .ok ⟨d.runOps ops, inner, none⟩
  | (_, .error e) => .error e

namespace SqlEngine

/-- `MvccStore::begin`. -/
def beginTxn (e : SqlEngine) : Res Transaction × SqlEngine :=
  match e.inner.begin with
  | (ops, result, inner) => (txnResult result, ⟨e.disk.runOps (onLog ops), inner, e.active⟩)

/-- The call `commit` or `abort`, which takes the transaction. -/
def finish (e : SqlEngine) (txn : Transaction) (call : Call) : Res Unit × SqlEngine :=
  let out := call.run txn e.inner
  (txnResult (out.result.map fun _ => ()), ⟨e.disk.runOps (onLog out.ops), out.inner, none⟩)

/-- `with_transaction`; a panic drops the transaction on its way out. -/
def withTransaction {α : Type} (operation : Act Session α) : Act SqlEngine α := fun e =>
  match e.active with
  | some txn =>
    match operation.run ⟨e.disk, e.inner, txn⟩ with
    | (result, s) => (result, ⟨s.disk, s.inner, some s.txn⟩)
  | none =>
    match e.beginTxn with
    | (.error fault, e) => (.error fault, e)
    | (.ok txn, e) =>
      match operation.run ⟨e.disk, e.inner, txn⟩ with
      | (.ok result, s) =>
        match SqlEngine.finish ⟨s.disk, s.inner, none⟩ s.txn .commit with
        | (.ok (), e) => (.ok result, e)
        | (.error fault, e) => (.error fault, e)
      | (.error (.io error), s) =>
        (.error (.io error), (SqlEngine.finish ⟨s.disk, s.inner, none⟩ s.txn .abort).2)
      | (.error (.panic p), s) =>
        (.error (.panic p), (SqlEngine.finish ⟨s.disk, s.inner, none⟩ s.txn .drop).2)

/-- The statement `BEGIN`. -/
def beginStatement : Act SqlEngine SqlResult := fun e =>
  match e.active with
  | some _ => (input "sql: transaction already active", e)
  | none =>
    match e.beginTxn with
    | (.ok txn, e) => (.ok .begun, { e with active := some txn })
    | (.error fault, e) => (.error fault, e)

/-- The statements `COMMIT` and `ROLLBACK`: the open transaction is taken and ended. -/
def finishStatement (call : Call) (done : SqlResult) : Act SqlEngine SqlResult := fun e =>
  match e.active with
  | none => (input "sql: no active transaction", e)
  | some txn =>
    match e.finish txn call with
    | (.ok (), e) => (.ok done, e)
    | (.error fault, e) => (.error fault, e)

/-- `execute_statement`. -/
def executeStatement : Statement → Act SqlEngine SqlResult
  | .begin => beginStatement
  | .commit => finishStatement .commit .committed
  | .rollback => finishStatement .abort .rolledBack
  | other => withTransaction (executeData other)

/-- The loop of `execute`: the first statement that fails is the last one. -/
def executeAll : List Statement → Act SqlEngine (List SqlResult)
  | [] => pure []
  | statement :: statements => do
    let result ← executeStatement statement
    let results ← executeAll statements
    return result :: results

/-- `SqlEngine::execute`. -/
def execute (source : String) : Act SqlEngine (List SqlResult) := do
  let statements ← Act.lift (parse source)
  executeAll statements

/-! ## What is visible -/

/-- The transaction that the next statement reads in. -/
def reader (e : SqlEngine) : Transaction :=
  e.active.getD { id := e.inner.nextTxn, snapshot := e.inner.commitTs }

/-- All entries that the next statement reads. -/
def visible (e : SqlEngine) : List (String × String) :=
  match e.reader.scanPrefix e.inner "" with
  | .ok entries => entries
  | .error _ => []

/-- The engines that can come about: a new one, and from there by scripts and by opening the file
    again, as it is or as a crash has left it. -/
inductive Reached : SqlEngine → Prop
  | opened {e} : SqlEngine.open (fun _ => none) = .ok e → Reached e
  | executed {e} (source : String) : Reached e → Reached ((execute source).run e).2
  | reopened {e d e'} : Reached e → d = e.disk ∨ e.disk.Crashed d → SqlEngine.open d = .ok e' → Reached e'

end SqlEngine

end NutDb.Sql
