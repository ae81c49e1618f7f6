/-
  The transactional store as a system.

  Any number of transactions, each behind a handle, take turns in calling the
  store; the process may crash at any point and be started again.  A history
  of a run is the list of the write sets that are committed in it.
-/
import NutDb.Mvcc.Store
import NutDb.Lib.Trace

namespace NutDb

open Lib

namespace Mvcc

/-! ## The system -/

/-- Calls of a transaction. -/
inductive Call where
  | get (key : String)
  | scanPrefix (pre : String)
  | set (key value : String)
  | delete (key : String)
  | commit
  | abort
  | drop
  deriving DecidableEq, Repr

/-- What a call returns. -/
inductive Answer where
  | unit
  | value (v : Option String)
  | rows (rows : List (String × String))
  | timestamp (ts : U64)
  deriving DecidableEq, Repr

/-- What a call does: the operations it issues on the log, its result, the store after it, and the
    transaction if it is still there. -/
structure Outcome where
  ops : List FileOp
  result : TxnRes Answer
  inner : Inner
  txn : Option Transaction

/-- What a call does. -/
def Call.run (t : Transaction) (inner : Inner) : Call → Outcome
  | .get key => ⟨[], (t.get inner key).map .value, inner, some t⟩
  | .scanPrefix pre => ⟨[], (t.scanPrefix inner pre).map .rows, inner, some t⟩
  | .set key value =>
    let (ops, result, t) := t.set key value
    ⟨ops, result.map fun _ => .unit, inner, some t⟩
  | .delete key =>
    let (ops, result, t) := t.delete key
    ⟨ops, result.map fun _ => .unit, inner, some t⟩
  | .commit =>
    let (ops, result, inner, t) := t.commit inner
    ⟨ops, result.map .timestamp, t.drop inner, none⟩
  | .abort =>
    let (ops, result, inner, t) := t.abort inner
    ⟨ops, result.map fun _ => .unit, t.drop inner, none⟩
  | .drop => ⟨[], .ok .unit, t.drop inner, none⟩

/-- The write that a call asks for. -/
def Call.write : Call → Option (String × Option String)
  | .set key value => some (key, some value)
  | .delete key => some (key, none)
  | _ => none

/-- The log, the store if it is running, and the transactions by their handles. -/
structure System where
  disk : Disk Unit
  store : Option Inner
  txns : ℕ → Option Transaction

/-- What happens in a step: `after` counts the operations issued before a crash. -/
inductive Label where
  | opened
  | openFailed
  | openCrash (after : ℕ)
  | began (handle : ℕ) (id : U64)
  | beginFailed
  | beginCrash (after : ℕ)
  | called (handle : ℕ) (call : Call) (result : TxnRes Answer)
  | callCrash (handle : ℕ) (call : Call) (after : ℕ)
  | gc (report : GcReport)
  | crash

/-- The operations on the log, as operations on the directory. -/
def onLog (ops : List FileOp) : List (DiskOp Unit) := ops.map (DiskOp.file ())

/-- No transactions. -/
def noTxns : ℕ → Option Transaction := fun _ => none

/-- The steps of the system. -/
inductive Step : System → Label → System → Prop
  | opened {d ops inner} : openStore d = (ops, .ok inner) →
      Step ⟨d, none, noTxns⟩ .opened ⟨d.runOps ops, some inner, noTxns⟩
  | openFailed {d ops e} : openStore d = (ops, .error e) →
      Step ⟨d, none, noTxns⟩ .openFailed ⟨d.runOps ops, none, noTxns⟩
  | openCrash {d d' k} : (d.runOps ((openStore d).1.take k)).Crashed d' →
      Step ⟨d, none, noTxns⟩ (.openCrash k) ⟨d', none, noTxns⟩
  | began {d inner txns ops t inner' h} : inner.begin = (ops, .ok t, inner') → txns h = none →
      Step ⟨d, some inner, txns⟩ (.began h t.id)
        ⟨d.runOps (onLog ops), some inner', Function.update txns h (some t)⟩
  | beginFailed {d inner txns ops e inner'} : inner.begin = (ops, .error e, inner') →
      Step ⟨d, some inner, txns⟩ .beginFailed ⟨d.runOps (onLog ops), some inner', txns⟩
  | beginCrash {d d' inner txns k} : (d.runOps (onLog (inner.begin.1.take k))).Crashed d' →
      Step ⟨d, some inner, txns⟩ (.beginCrash k) ⟨d', none, noTxns⟩
  | called {d inner txns h t} (call : Call) : txns h = some t →
      Step ⟨d, some inner, txns⟩ (.called h call (call.run t inner).result)
        ⟨d.runOps (onLog (call.run t inner).ops), some (call.run t inner).inner,
          Function.update txns h (call.run t inner).txn⟩
  | callCrash {d d' inner txns h t k} (call : Call) : txns h = some t →
      (d.runOps (onLog ((call.run t inner).ops.take k))).Crashed d' →
      Step ⟨d, some inner, txns⟩ (.callCrash h call k) ⟨d', none, noTxns⟩
  | gc {d inner txns} : Step ⟨d, some inner, txns⟩ (.gc inner.gc.1) ⟨d, some inner.gc.2, txns⟩
  | crash {d d' inner txns} : d.Crashed d' → Step ⟨d, inner, txns⟩ .crash ⟨d', none, noTxns⟩

/-- No log yet, and nothing running. -/
def initial : System := ⟨fun _ => none, none, noTxns⟩

/-! ## Histories -/

/-- How a step extends the history of commits: by the writes of an acknowledged commit, and
    perhaps by those of a commit that a crash interrupts. -/
def Extends (sys : System) : Label → List Writes → List Writes → Prop
  | .called h .commit (.ok (.timestamp ts)), commits, commits' =>
    ∃ t, sys.txns h = some t ∧ commits' = commits ++ [t.writes] ∧ ts.val = commits'.length
  | .callCrash h .commit _, commits, commits' =>
    commits' = commits ∨ ∃ t, sys.txns h = some t ∧ commits' = commits ++ [t.writes]
  | _, commits, commits' => commits' = commits

/-- What a state shows of the history.  A running store shows its end; a store that is not
    running can be opened, and then shows the state after each number of commits. -/
def Shows (sys : System) (commits : List Writes) : Prop :=
  match sys.store with
  | some inner => inner.commitTs.val = commits.length ∧
      ∀ key, inner.getAt key inner.commitTs = valueAfter commits key
  | none => ∃ ops inner, openStore sys.disk = (ops, .ok inner) ∧
      inner.commitTs.val = commits.length ∧ ∀ key, ∀ s : U64, s ≤ inner.commitTs →
        inner.getAt key s = valueAfter (commits.take s.val) key

/-- A history for the whole run: it grows with every step as it has to, and every state shows it. -/
inductive Explained : List (System × Label) → System → List Writes → Prop
  | start : Shows initial [] → Explained [] initial []
  | step {steps sys l sys' commits commits'} : Explained steps sys commits →
      Extends sys l commits commits' → Shows sys' commits' → Explained ((sys, l) :: steps) sys' commits'

/-- The transaction that a step returned. -/
def Label.begunId : Label → Option U64
  | .began _ id => some id
  | _ => none

/-- The ids that `begin` has returned, newest first. -/
def issued (steps : List (System × Label)) : List U64 := steps.filterMap fun p => p.2.begunId

/-- The latest write of a key by the transaction behind a handle. -/
def ownWrite (h : ℕ) (key : String) : List (System × Label) → Option (Option String)
  | [] => none
  | (_, .began h' _) :: steps => if h' = h then none else ownWrite h key steps
  | (_, .called h' call (.ok _)) :: steps =>
    match call.write with
    | some (k, v) => if h' = h ∧ k = key then some v else ownWrite h key steps
    | none => ownWrite h key steps
  | _ :: steps => ownWrite h key steps

end Mvcc

end NutDb
