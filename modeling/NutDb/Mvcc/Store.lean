/-
  The transactional store (`MvccStore` and `Transaction` of `src/txn.rs`).

  Every call runs under the store's lock, so it is one step from the state of
  the store and of its transaction to their state after it, together with the
  operations it issues on the log.  A call of a transaction that takes it by
  value ends with its drop.
-/
import NutDb.Mvcc.Record
import NutDb.WalFile

namespace NutDb

open Lib

namespace Mvcc

/-- `Inner`; its log is the file that the operations are issued on. -/
structure Inner where
  versions : Versions
  active : List (U64 × U64)
  nextTxn : U64
  commitTs : U64
  deriving DecidableEq, Repr

/-- `Transaction`. -/
structure Transaction where
  id : U64
  snapshot : U64
  writes : Writes := []
  finished : Bool := false
  deriving DecidableEq, Repr

/-- `TxnError`. -/
inductive TxnError where
  | io (fault : Fault)
  | conflict (key : String)
  | finished
  deriving DecidableEq, Repr

/-- `TxnError`'s `Display`, for an I/O error with its message. -/
def TxnError.display : TxnError → String
  | io (.io e) => e.message
  | io (.panic _) => ""
  | conflict key => "write conflict on key '" ++ key ++ "'"
  | finished => "transaction is already finished"

/-- The result of a call of a transaction. -/
abbrev TxnRes (α : Type) := Except TxnError α

/-- `?` on an I/O result. -/
def liftIo {α : Type} : Res α → TxnRes α
  | .ok a => .ok a
  | .error e => .error (.io e)

/-- `wal.append(&record.encode()?)?`. -/
def appendRecord (record : TxnRecord) : TxnRes (List FileOp) := liftIo do
  let payload ← record.encode
  let frame ← Wal.append payload
  return [.append frame]

/-! ## Opening -/

/-- What the recovery loop of `open` keeps. -/
structure Replay where
  versions : Versions := []
  pending : List (U64 × Writes) := []
  begun : List (U64 × U64) := []
  maxTxn : U64 := 0
  commitTs : U64 := 0
  deriving DecidableEq, Repr

/-- `ensure_begun`. -/
def ensureBegun (begun : List (U64 × U64)) (txn : U64) : Res Unit :=
  if (begun.lookup txn).isSome then .ok ()
  else invalid "mvcc: record references unknown transaction"

/-- `pending.entry(txn).or_default()`, with a write inserted. -/
def Replay.buffer (r : Replay) (txn : U64) (key : String) (value : Option String) : Replay :=
  { r with pending := insertEntry txn (insertEntry key value ((r.pending.lookup txn).getD [])) r.pending }

/-- One turn of the recovery loop. -/
def replayRecord (r : Replay) : TxnRecord → Res Replay
  | .begin txn snapshot => .ok { r with
      maxTxn := max r.maxTxn txn
      begun := insertEntry txn snapshot r.begun
      pending := insertEntry txn ((r.pending.lookup txn).getD []) r.pending }
  | .set txn key value => do
    ensureBegun r.begun txn
    return r.buffer txn key (some value)
  | .delete txn key => do
    ensureBegun r.begun txn
    return r.buffer txn key none
  | .commit txn timestamp => do
    ensureBegun r.begun txn
    if timestamp ≤ r.commitTs then invalid "mvcc: commit timestamps are not increasing"
    else return { r with
      versions := applyVersions r.versions ((r.pending.lookup txn).getD []) timestamp
      pending := eraseKey txn r.pending
      begun := eraseKey txn r.begun
      commitTs := timestamp }
  | .abort txn => .ok { r with
      pending := eraseKey txn r.pending
      begun := eraseKey txn r.begun }

/-- The recovery loop over the payloads of the log. -/
def replayPayloads (payloads : List Bytes) : Res Replay :=
  payloads.foldlM (fun r payload => do
    let record ← TxnRecord.decode payload
    replayRecord r record) {}

/-- `MvccStore::open`. -/
def openStore (d : Disk Unit) : List (DiskOp Unit) × Res Inner :=
  let replay := Wal.replayPath ((d ()).map File.bytes)
  match replayPayloads replay.records with
  | .error e => ([], .error e)
  | .ok r =>
    match r.maxTxn.checkedAdd 1 with
    | none => (Wal.openOps () replay, invalid "mvcc: transaction id exhausted")
    | some next => (Wal.openOps () replay, .ok ⟨r.versions, [], next, r.commitTs⟩)

/-! ## The store -/

/-- `GcReport`. -/
structure GcReport where
  watermark : U64
  versionsReclaimed : ℕ
  deriving DecidableEq, Repr

namespace Inner

/-- `MvccStore::begin`. -/
def begin (inner : Inner) : List FileOp × TxnRes Transaction × Inner :=
  match inner.nextTxn.checkedAdd 1 with
  | none => ([], liftIo (invalid "mvcc: transaction id exhausted"), inner)
  | some next =>
    let id := inner.nextTxn
    let snapshot := inner.commitTs
    match appendRecord (.begin id snapshot) with
    | .error e => ([], .error e, { inner with nextTxn := next })
    | .ok ops => (ops ++ [.sync], .ok { id := id, snapshot := snapshot },
        { inner with nextTxn := next, active := insertEntry id snapshot inner.active })

/-- `MvccStore::get_at`. -/
def getAt (inner : Inner) (key : String) (snapshot : U64) : Option String :=
  visibleValue inner.versions key snapshot

/-- The watermark of a collection: the oldest active snapshot. -/
def watermark (inner : Inner) : U64 :=
  (inner.active.map Prod.snd).min?.getD ((inner.commitTs.checkedAdd 1).getD (Fin.last _))

/-- `MvccStore::gc`. -/
def gc (inner : Inner) : GcReport × Inner :=
  (⟨inner.watermark, (inner.versions.map fun e =>
      e.2.length - (e.2.filter fun v => v.kept inner.watermark).length).sum⟩,
    { inner with versions := retainVersions inner.watermark inner.versions })

end Inner

/-! ## Transactions -/

/-- `starts_with`. -/
def startsWith (key pre : String) : Bool := pre.toList.isPrefixOf key.toList

namespace Transaction

/-- `ensure_open`. -/
def ensureOpen (t : Transaction) : TxnRes Unit := if t.finished then .error .finished else .ok ()

/-- `Transaction::get`. -/
def get (t : Transaction) (inner : Inner) (key : String) : TxnRes (Option String) := do
  t.ensureOpen
  match t.writes.lookup key with
  | some value => return value
  | none => return inner.getAt key t.snapshot

/-- `Transaction::scan_prefix`. -/
def scanPrefix (t : Transaction) (inner : Inner) (pre : String) : TxnRes (List (String × String)) := do
  t.ensureOpen
  let rows := (inner.versions.filter fun e => startsWith e.1 pre).foldl (fun rows e =>
    match visibleValue inner.versions e.1 t.snapshot with
    | some value => insertEntry e.1 value rows
    | none => rows) []
  let own := (t.writes.dropWhile fun w => decide (w.1 < pre)).takeWhile fun w => startsWith w.1 pre
  return own.foldl (fun rows w =>
    match w.2 with
    | some value => insertEntry w.1 value rows
    | none => eraseKey w.1 rows) rows

/-- The body of `set` and `delete`: log a record, and then buffer the write. -/
def write (t : Transaction) (record : TxnRecord) (key : String) (value : Option String) :
    List FileOp × TxnRes Unit × Transaction :=
  match t.ensureOpen with
  | .error e => ([], .error e, t)
  | .ok () =>
    match appendRecord record with
    | .error e => ([], .error e, t)
    | .ok ops => (ops, .ok (), { t with writes := insertEntry key value t.writes })

/-- `Transaction::set`. -/
def set (t : Transaction) (key value : String) : List FileOp × TxnRes Unit × Transaction :=
  t.write (.set t.id key value) key (some value)

/-- `Transaction::delete`. -/
def delete (t : Transaction) (key : String) : List FileOp × TxnRes Unit × Transaction :=
  t.write (.delete t.id key) key none

/-- The end of a transaction without effect: its record, and no longer active. -/
def finishAborted (t : Transaction) (inner : Inner) : TxnRes (List FileOp × Inner × Transaction) := do
  let ops ← appendRecord (.abort t.id)
  return (ops ++ [.sync], { inner with active := eraseKey t.id inner.active }, { t with finished := true })

/-- `Transaction::commit`, before the drop. -/
def commit (t : Transaction) (inner : Inner) : List FileOp × TxnRes U64 × Inner × Transaction :=
  match t.ensureOpen with
  | .error e => ([], .error e, inner, t)
  | .ok () =>
    match t.writes.find? fun w => decide (latestChange inner.versions w.1 > t.snapshot) with
    | some w =>
      match t.finishAborted inner with
      | .error e => ([], .error e, inner, t)
      | .ok (ops, inner, t) => (ops, .error (.conflict w.1), inner, t)
    | none =>
      match inner.commitTs.checkedAdd 1 with
      | none => ([], liftIo (invalid "mvcc: commit timestamp exhausted"), inner, t)
      | some timestamp =>
        match appendRecord (.commit t.id timestamp) with
        | .error e => ([], .error e, inner, t)
        | .ok ops => (ops ++ [.sync], .ok timestamp,
          { inner with
            versions := applyVersions inner.versions t.writes timestamp
            commitTs := timestamp
            active := eraseKey t.id inner.active },
          { t with writes := [], finished := true })

/-- `Transaction::abort`, before the drop. -/
def abort (t : Transaction) (inner : Inner) : List FileOp × TxnRes Unit × Inner × Transaction :=
  match t.ensureOpen with
  | .error e => ([], .error e, inner, t)
  | .ok () =>
    match t.finishAborted inner with
    | .error e => ([], .error e, inner, t)
    | .ok (ops, inner, t) => (ops, .ok (), inner, t)

/-- `Transaction`'s `drop`. -/
def drop (t : Transaction) (inner : Inner) : Inner :=
  if t.finished then inner else { inner with active := eraseKey t.id inner.active }

end Transaction

end Mvcc

end NutDb
