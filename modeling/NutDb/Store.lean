/-
  The durable key-value store (`src/store.rs`).

  A call of the store is described by the file operations it issues, in order,
  its result, and the store after it.  That the operations succeed is assumed
  (an I/O error would be one more result of the operation); what can still fail
  is a record that is too long for the log and a node that does not fit a page.
-/
import NutDb.Command
import NutDb.SnapshotSpec

namespace NutDb

open Lib BTree

/-- `Recovery`. -/
structure Recovery where
  recordsReplayed : ℕ
  truncated : Bool
  validBytes : ℕ
  deriving DecidableEq, Repr

/-- `Store`: the log is the file `wal`, open for appending. -/
structure Store where
  data : BTreeIndex
  recovery : Recovery
  deriving DecidableEq, Repr

namespace Store

/-- `apply_memory`. -/
def applyMemory (data : BTreeIndex) : Command → Res BTreeIndex
  | .set key value => data.insert key value
  | .delete key => do
    let (_, data) ← data.delete key
    return data
  | .checkpoint => .ok data

/-- The loop of `open` over the replayed records. -/
def replayRecords (data : BTreeIndex) (records : List Bytes) : Res BTreeIndex :=
  records.foldlM (fun data record => do
    let command ← Command.decode record
    applyMemory data command) data

/-- `Store::open`. -/
def openStore (d : Disk FileName) : List (DiskOp FileName) × Res Store :=
  let replay := Wal.replayPath ((d .wal).map File.bytes)
  let (loadOps, loaded) := BTreeIndex.load d
  match loaded.bind fun data => replayRecords data replay.records with
  | .error e => (loadOps, .error e)
  | .ok data =>
    let repairOps := if replay.truncated then
      [.file .wal (.setLen replay.validBytes), .file .wal .sync] else []
    (loadOps ++ repairOps ++ [.create .wal],
      .ok ⟨data, ⟨replay.records.length, replay.truncated, replay.validBytes⟩⟩)

/-- What a call does: the operations it issues, its result, and the store after it. -/
structure Outcome where
  ops : List (DiskOp FileName)
  result : Res Unit
  store : Store

/-- `Store::apply`. -/
def apply (s : Store) (command : Command) : Outcome :=
  match Wal.append command.encode with
  | .error e => ⟨[], .error e, s⟩
  | .ok record =>
    let ops := [.file .wal (.append record), .file .wal .sync]
    match applyMemory s.data command with
    | .error e => ⟨ops, .error e, s⟩
    | .ok data => ⟨ops, .ok (), { s with data := data }⟩

/-- `Store::set`. -/
def set (s : Store) (key value : String) : Outcome := s.apply (.set key value)

/-- `Store::delete`. -/
def delete (s : Store) (key : String) : Outcome := s.apply (.delete key)

/-- The loop of `apply_batch` that appends the records: it stops at the first one that the log
    rejects. -/
def appendAll : List Command → List (DiskOp FileName) × Res Unit
  | [] => ([], .ok ())
  | command :: commands =>
    match Wal.append command.encode with
    | .error e => ([], .error e)
    | .ok record =>
      let (ops, result) := appendAll commands
      (.file .wal (.append record) :: ops, result)

/-- `Store::apply_batch`. -/
def applyBatch (s : Store) (commands : List Command) : Outcome :=
  if commands.any fun command => command == .checkpoint then
    ⟨[], Res.fail .invalidInput "store: checkpoint is not a user mutation", s⟩
  else
    match appendAll commands with
    | (ops, .error e) => ⟨ops, .error e, s⟩
    | (ops, .ok ()) =>
      match commands.foldlM applyMemory s.data with
      | .error e => ⟨ops ++ [.file .wal .sync], .error e, s⟩
      | .ok data => ⟨ops ++ [.file .wal .sync], .ok (), { s with data := data }⟩

/-- `Store::set_batch`. -/
def setBatch (s : Store) (entries : List (String × String)) : Outcome :=
  s.applyBatch (entries.map fun e => .set e.1 e.2)

/-- `stage_error`. -/
def stageError (stage : String) : Fault → Fault
  | .io e => .io ⟨e.kind, "store: failed to " ++ stage ++ ": " ++ e.message⟩
  | .panic p => .panic p

/-- `Store::checkpoint`. -/
def checkpoint (s : Store) (d : Disk FileName) : Outcome :=
  match s.data.save d with
  | (ops, .error e) => ⟨ops, .error (stageError "write page snapshot" e), s⟩
  | (ops, .ok ()) =>
    match Wal.append Command.checkpoint.encode with
    | .error e => ⟨ops, .error (stageError "append checkpoint record" e), s⟩
    | .ok record =>
      ⟨ops ++ [.file .wal (.append record), .file .wal .sync, .file .wal (.setLen 0),
        .file .wal .sync], .ok (), s⟩

/-- `Store::get`. -/
def get (s : Store) (key : String) : Res (Option String) := s.data.get key

/-! ## The map of a list of commands -/

/-- The effect of a command on the map. -/
def applyCommand (m : List (String × String)) : Command → List (String × String)
  | .set key value => insertEntry key value m
  | .delete key => eraseKey key m
  | .checkpoint => m

/-- The effect of a list of commands on the map. -/
def applyCommands (m : List (String × String)) (commands : List Command) : List (String × String) :=
  commands.foldl applyCommand m

section Memory
variable {data : BTreeIndex} {m : List (String × String)}

/-- **`apply_memory` applies the command to the map**, without panics. -/
theorem applyMemory_spec (command : Command) (h : data.Represents m) :
    ∃ data', applyMemory data command = .ok data' ∧ data'.Represents (applyCommand m command) := by
  cases command with
  | set key value => exact BTreeIndex.insert_spec key value h
  | delete key =>
    obtain ⟨t', h1, h2⟩ := BTreeIndex.delete_spec key h
    exact ⟨t', by rw [applyMemory, h1]; rfl, h2⟩
  | checkpoint => exact ⟨data, rfl, h⟩

theorem foldlM_applyMemory (commands : List Command) (h : data.Represents m) :
    ∃ data', commands.foldlM applyMemory data = .ok data' ∧
      data'.Represents (applyCommands m commands) := by
  induction commands generalizing data m with
  | nil => exact ⟨data, rfl, h⟩
  | cons c cs ih =>
    obtain ⟨d₁, h1, hr₁⟩ := applyMemory_spec c h
    obtain ⟨d₂, h2, hr₂⟩ := ih hr₁
    exact ⟨d₂, by rw [List.foldlM_cons, h1]; exact h2, hr₂⟩

/-- Replaying the records of commands that the log accepted. -/
theorem replayRecords_spec {commands : List Command} (hfit : ∀ c ∈ commands, Wal.Fits c.encode)
    (h : data.Represents m) :
    ∃ data', replayRecords data (commands.map Command.encode) = .ok data' ∧
      data'.Represents (applyCommands m commands) := by
  induction commands generalizing data m with
  | nil => exact ⟨data, rfl, h⟩
  | cons c cs ih =>
    obtain ⟨d₁, h1, hr₁⟩ := applyMemory_spec c h
    obtain ⟨d₂, h2, hr₂⟩ := ih (fun c' hc' => hfit c' (by simp [hc'])) hr₁
    refine ⟨d₂, ?_, hr₂⟩
    rw [replayRecords, List.map_cons, List.foldlM_cons, Command.decode_encode (hfit c (by simp)),
      Res.ok_bind, h1]
    exact h2

end Memory

/-! ## Replaying a log over a map that already has its effects -/

section Idempotent

theorem sortedKeys_applyCommands {m : List (String × String)} (h : SortedKeys m)
    (commands : List Command) : SortedKeys (applyCommands m commands) := by
  induction commands generalizing m with
  | nil => exact h
  | cons c cs ih =>
    refine ih ?_
    cases c with
    | set key value => exact sortedKeys_insertEntry h
    | delete key => exact sortedKeys_eraseKey h
    | checkpoint => exact h

/-- Whether a command decides the value of a key, and to what. -/
def decides (key : String) : Command → Option (Option String)
  | .set k v => if k = key then some (some v) else none
  | .delete k => if k = key then some none else none
  | .checkpoint => none

theorem lookup_applyCommand (m : List (String × String)) (c : Command) (key : String) :
    (applyCommand m c).lookup key = (decides key c).getD (m.lookup key) := by
  cases c with
  | set k v =>
    simp only [applyCommand, lookup_insertEntry, decides]
    by_cases h : k = key
    · simp [h]
    · simp [h, Ne.symm h]
  | delete k =>
    simp only [applyCommand, lookup_eraseKey, decides]
    by_cases h : k = key
    · simp [h]
    · simp [h, Ne.symm h]
  | checkpoint => rfl

/-- The last command that decides the value of a key. -/
def lastDecision (key : String) (commands : List Command) : Option (Option String) :=
  commands.foldl (fun acc c => (decides key c).or acc) none

theorem foldl_or_decides (key : String) (commands : List Command)
    (acc : Option (Option String)) :
    commands.foldl (fun acc c => (decides key c).or acc) acc = (lastDecision key commands).or acc := by
  induction commands generalizing acc with
  | nil => simp [lastDecision]
  | cons c cs ih =>
    simp only [lastDecision, List.foldl_cons]
    rw [ih, ih ((decides key c).or none), Option.or_none, Option.or_assoc]

theorem lookup_applyCommands (m : List (String × String)) (commands : List Command) (key : String) :
    (applyCommands m commands).lookup key = (lastDecision key commands).getD (m.lookup key) := by
  induction commands generalizing m with
  | nil => simp [applyCommands, lastDecision]
  | cons c cs ih =>
    have h1 := ih (applyCommand m c)
    rw [lookup_applyCommand] at h1
    rw [applyCommands, List.foldl_cons]
    rw [show lastDecision key (c :: cs) = (lastDecision key cs).or (decides key c) by
      rw [lastDecision, List.foldl_cons, foldl_or_decides, Option.or_none]]
    refine h1.trans ?_
    cases lastDecision key cs <;> simp

/-- **Replay is idempotent**: a log replayed over the map it leads to changes nothing. -/
theorem applyCommands_idem {m : List (String × String)} (h : SortedKeys m) (commands : List Command) :
    applyCommands (applyCommands m commands) commands = applyCommands m commands := by
  have h1 := sortedKeys_applyCommands h commands
  refine sortedKeys_ext (sortedKeys_applyCommands h1 commands) h1 fun key => ?_
  rw [lookup_applyCommands, lookup_applyCommands]
  cases lastDecision key commands <;> rfl

end Idempotent

end Store

end NutDb
