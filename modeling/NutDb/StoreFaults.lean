/-
  The store on a log whose appends fail.

  An append may fail after it has written a strict prefix of its frame; the call
  returns the error and the process goes on.  The calls below are those of
  `Store.lean` with such errors; without errors they are the same
  (`runOr_sound`).

  Replay stops at the partial frame, so everything that is appended behind it is
  lost; and a batch that fails leaves the records before the failing one in the
  log.  `acknowledged_survive` says that nothing else goes wrong: as long as no
  call writes behind a partial frame, and no failing batch leaves records that
  change acknowledged values, every acknowledged mutation is recovered.
-/
import NutDb.StoreCrash
import NutDb.Lib.Trace

namespace NutDb

open Lib BTree

namespace Store

/-! ## Calls -/

/-- An append that fails in a call: how many appends of the call come before it, how many bytes it
    writes at most, and its error. -/
structure AppendFault where
  index : ℕ
  written : ℕ
  error : IoError
  deriving DecidableEq, Repr

/-- The fault for the appends after the first one. -/
def AppendFault.next (f : AppendFault) : AppendFault := { f with index := f.index - 1 }

/-- What a failing append writes of the record: a strict prefix. -/
def cut (fault : Option AppendFault) (record : Bytes) : Option (Bytes × IoError) :=
  match fault with
  | some f => if f.index = 0 then some (record.take (min f.written (record.length - 1)), f.error) else none
  | none => none

/-- `Wal::append`, which may fail. -/
def appendOr (fault : Option AppendFault) (payload : Bytes) : List (DiskOp FileName) × Res Unit :=
  match Wal.append payload with
  | .error e => ([], .error e)
  | .ok record =>
    match cut fault record with
    | some (part, e) => ([.file .wal (.append part)], .error (.io e))
    | none => ([.file .wal (.append record)], .ok ())

/-- `Store::apply`. -/
def applyOr (fault : Option AppendFault) (s : Store) (command : Command) : Outcome :=
  match appendOr fault command.encode with
  | (ops, .error e) => ⟨ops, .error e, s⟩
  | (ops, .ok ()) =>
    match applyMemory s.data command with
    | .error e => ⟨ops ++ [.file .wal .sync], .error e, s⟩
    | .ok data => ⟨ops ++ [.file .wal .sync], .ok (), { s with data := data }⟩

/-- The loop of `apply_batch` that appends the records. -/
def appendAllOr (fault : Option AppendFault) : List Command → List (DiskOp FileName) × Res Unit
  | [] => ([], .ok ())
  | command :: commands =>
    match appendOr fault command.encode with
    | (ops, .error e) => (ops, .error e)
    | (ops, .ok ()) =>
      let (more, result) := appendAllOr (fault.map AppendFault.next) commands
      (ops ++ more, result)

/-- `Store::apply_batch`. -/
def applyBatchOr (fault : Option AppendFault) (s : Store) (commands : List Command) : Outcome :=
  if commands.any fun command => command == .checkpoint then
    ⟨[], Res.fail .invalidInput "store: checkpoint is not a user mutation", s⟩
  else
    match appendAllOr fault commands with
    | (ops, .error e) => ⟨ops, .error e, s⟩
    | (ops, .ok ()) =>
      match commands.foldlM applyMemory s.data with
      | .error e => ⟨ops ++ [.file .wal .sync], .error e, s⟩
      | .ok data => ⟨ops ++ [.file .wal .sync], .ok (), { s with data := data }⟩

/-- The calls that change the store. -/
inductive Mutation where
  | set (key value : String)
  | delete (key : String)
  | applyBatch (commands : List Command)
  deriving DecidableEq, Repr

namespace Mutation

/-- The call of the store. -/
def call : Mutation → Call
  | set key value => .set key value
  | delete key => .delete key
  | applyBatch commands => .applyBatch commands

/-- What a call does on a log that may fail. -/
def runOr (fault : Option AppendFault) (s : Store) : Mutation → Outcome
  | set key value => s.applyOr fault (.set key value)
  | delete key => s.applyOr fault (.delete key)
  | applyBatch commands => s.applyBatchOr fault commands

end Mutation

theorem appendOr_sound (payload : Bytes) : appendOr none payload =
    match Wal.append payload with
    | .error e => ([], .error e)
    | .ok record => ([.file .wal (.append record)], .ok ()) := rfl

theorem applyOr_sound (s : Store) (command : Command) : s.applyOr none command = s.apply command := by
  unfold applyOr apply
  rw [appendOr_sound]
  cases Wal.append command.encode <;> rfl

theorem appendAllOr_sound (commands : List Command) : appendAllOr none commands = appendAll commands := by
  induction commands with
  | nil => rfl
  | cons command commands ih =>
    unfold appendAllOr appendAll
    rw [appendOr_sound]
    cases Wal.append command.encode with
    | error e => rfl
    | ok record =>
      simp only [Option.map_none, ih]
      rfl

/-- **Without errors** the calls are those of the store. -/
theorem runOr_sound (s : Store) (d : Disk FileName) (mutation : Mutation) :
    mutation.runOr none s = mutation.call.run s d := by
  cases mutation with
  | set key value => exact applyOr_sound s _
  | delete key => exact applyOr_sound s _
  | applyBatch commands =>
    simp only [Mutation.runOr, applyBatchOr, appendAllOr_sound]
    rfl

/-! ## The system -/

/-- The files after the process has ended, as it has left them. -/
def ended (d : Disk FileName) : Disk FileName := fun n => (d n).map fun f => File.settled f.bytes

/-- What happens in a step. -/
inductive FaultLabel where
  | opened
  | closed
  | called (mutation : Mutation) (fault : Option AppendFault) (result : Res Unit)
  deriving DecidableEq

/-- The steps of the store on a log that fails.  The process does not crash, but it may end and
    the store be opened again. -/
inductive FaultStep : System → FaultLabel → System → Prop
  | opened {d ops s} : openStore d = (ops, .ok s) → FaultStep ⟨d, none⟩ .opened ⟨d.runOps ops, some s⟩
  | closed {d s} : FaultStep ⟨d, some s⟩ .closed ⟨ended d, none⟩
  | called {d s} (mutation : Mutation) (fault : Option AppendFault) :
      FaultStep ⟨d, some s⟩ (.called mutation fault (mutation.runOr fault s).result)
        ⟨d.runOps (mutation.runOr fault s).ops, some (mutation.runOr fault s).store⟩

/-- What the appends of some commands write: whole records, and perhaps a part of one. -/
def writtenAll (fault : Option AppendFault) : List Command → List Command × Bytes
  | [] => ([], [])
  | command :: commands =>
    if Wal.Fits command.encode then
      match cut fault (Wal.frame command.encode) with
      | some (part, _) => ([], part)
      | none =>
        let (whole, part) := writtenAll (fault.map AppendFault.next) commands
        (command :: whole, part)
    else ([], [])

/-- The mutations that a call asks for. -/
def Mutation.commands (mutation : Mutation) : List Command := mutation.call.commands

/-- What a call writes to the log: whole records, and perhaps a part of one. -/
def Mutation.written (mutation : Mutation) (fault : Option AppendFault) : List Command × Bytes :=
  if mutation.commands.any fun command => command == .checkpoint then ([], [])
  else writtenAll fault mutation.commands

/-- The step leaves a part of a record at the end of the log. -/
def FaultLabel.LeavesPart : FaultLabel → Prop
  | .called mutation fault _ => (mutation.written fault).2 ≠ []
  | _ => False

/-- The step writes to the log. -/
def FaultLabel.Writes : FaultLabel → Prop
  | .called mutation fault _ => mutation.written fault ≠ ([], [])
  | _ => False

/-- Since the store was opened, an append has failed behind a part of its record. -/
def Torn : List (System × FaultLabel) → Prop
  | [] => False
  | (_, l) :: steps => l ≠ .opened ∧ (l.LeavesPart ∨ Torn steps)

/-- No call writes behind a part of a record, until the store is opened again. -/
def Careful : List (System × FaultLabel) → Prop
  | [] => True
  | (_, l) :: steps => (l.Writes → ¬ Torn steps) ∧ Careful steps

/-- The mutations of a run: those of the acknowledged calls, and of the failed ones those whose
    records were written. -/
def logged : List (System × FaultLabel) → List Command
  | [] => []
  | (_, .called mutation _ (.ok ())) :: steps => logged steps ++ mutation.commands
  | (_, .called mutation fault (.error _)) :: steps => logged steps ++ (mutation.written fault).1
  | _ :: steps => logged steps

/-- The mutations of the acknowledged calls of a run. -/
def acknowledged : List (System × FaultLabel) → List Command
  | [] => []
  | (_, .called mutation _ (.ok ())) :: steps => acknowledged steps ++ mutation.commands
  | _ :: steps => acknowledged steps

/-- The key is in the map at the beginning, or an acknowledged mutation decides its value. -/
def Known (m : List (String × String)) (steps : List (System × FaultLabel)) (key : String) : Prop :=
  (m.lookup key).isSome ∨ (lastDecision key (acknowledged steps)).isSome

/-- If a call does not write all of its records, those that it writes change no known value. -/
def FaultLabel.Spares (m : List (String × String)) (steps : List (System × FaultLabel)) : FaultLabel → Prop
  | .called mutation fault _ => mutation.written fault ≠ (mutation.commands, []) →
    ∀ key value, Known m steps key → lastDecision key (mutation.written fault).1 = some value →
      value = (applyCommands m (acknowledged steps)).lookup key
  | _ => True

/-- No call leaves records of a failed batch that change a known value. -/
def Sparing (m : List (String × String)) : List (System × FaultLabel) → Prop
  | [] => True
  | (_, l) :: steps => l.Spares m steps ∧ Sparing m steps

/-- The store that is opened after the process has ended has the map with these mutations. -/
def Recovers (m : List (String × String)) (d : Disk FileName) : Prop :=
  ∃ ops s, openStore (ended d) = (ops, .ok s) ∧ s.data.entries = .ok m

/-- The store that is opened after the process has ended has all acknowledged mutations: every known
    key has the value that the last of them gives it. -/
def KeepsAcknowledged (m : List (String × String)) (steps : List (System × FaultLabel))
    (d : Disk FileName) : Prop :=
  ∃ m', Recovers m' d ∧ ∀ key, Known m steps key →
    m'.lookup key = (applyCommands m (acknowledged steps)).lookup key

/-! ## What calls write -/

section Written
variable {fault : Option AppendFault} {part : Bytes} {e : IoError}

theorem cut_prefix {p : Bytes} (h : cut fault (Wal.frame p) = some (part, e)) (hp : Wal.Fits p) :
    ¬ Wal.StartsWithFrame part := by
  unfold cut at h
  split at h
  · split_ifs at h
    cases h
    refine Wal.not_startsWithFrame_of_prefix hp (List.take_prefix _ _) fun heq => ?_
    have hlen := congrArg List.length heq
    rw [List.length_take, Wal.length_frame, Wal.HEADER_LEN] at hlen
    omega
  · cases h

/-- The records that are written fit the log, and the part of one is not a record. -/
theorem writtenAll_fits (fault : Option AppendFault) (cs : List Command) :
    (∀ c ∈ (writtenAll fault cs).1, Wal.Fits c.encode) ∧
      ¬ Wal.StartsWithFrame (writtenAll fault cs).2 := by
  induction cs generalizing fault with
  | nil => exact ⟨by simp [writtenAll], Wal.not_startsWithFrame_nil⟩
  | cons c cs ih =>
    unfold writtenAll
    split_ifs with hfit
    · split
      · rename_i part e hcut
        exact ⟨by simp, cut_prefix hcut hfit⟩
      · obtain ⟨h1, h2⟩ := ih (fault.map AppendFault.next)
        refine ⟨fun c' hc' => ?_, h2⟩
        rcases List.mem_cons.1 hc' with rfl | hc'
        · exact hfit
        · exact h1 c' hc'
    · exact ⟨by simp, Wal.not_startsWithFrame_nil⟩

theorem written_fits (mutation : Mutation) (fault : Option AppendFault) :
    (∀ c ∈ (mutation.written fault).1, Wal.Fits c.encode) ∧
      ¬ Wal.StartsWithFrame (mutation.written fault).2 := by
  unfold Mutation.written
  split_ifs
  · exact ⟨by simp, Wal.not_startsWithFrame_nil⟩
  · exact writtenAll_fits fault _

/-- The operations write these records and this part of one to the log, and nothing else. -/
def WritesLog (ops : List (DiskOp FileName)) (w : List Command × Bytes) : Prop :=
  ∀ d : Disk FileName, (∀ n, n ≠ .wal → d.runOps ops n = d n) ∧
    ∀ f, d .wal = some f → ∃ g, d.runOps ops .wal = some g ∧
      g.bytes = f.bytes ++ (Wal.frames (w.1.map Command.encode) ++ w.2)

theorem writesLog_nil : WritesLog [] ([], []) := by
  refine fun d => ⟨fun n _ => rfl, fun f hf => ⟨f, hf, ?_⟩⟩
  simp

theorem writesLog_append (x : Bytes) (w : List Command × Bytes)
    (hx : x = Wal.frames (w.1.map Command.encode) ++ w.2) : WritesLog [.file .wal (.append x)] w := by
  refine fun d => ⟨fun n hn => Disk.set_other d _ hn, fun f hf => ?_⟩
  refine ⟨(FileOp.append x).run f, ?_, by rw [← hx]; rfl⟩
  rw [Disk.runOps_cons, Disk.runOps_nil, DiskOp.run, Disk.set_self, hf]
  rfl

theorem WritesLog.sync {ops : List (DiskOp FileName)} {w : List Command × Bytes} (h : WritesLog ops w) :
    WritesLog (ops ++ [.file .wal .sync]) w := by
  intro d
  obtain ⟨h1, h2⟩ := h d
  rw [Disk.runOps_append]
  refine ⟨fun n hn => (Disk.set_other _ _ hn).trans (h1 n hn), fun f hf => ?_⟩
  obtain ⟨g, hg, hb⟩ := h2 f hf
  refine ⟨File.settled g.bytes, ?_, hb⟩
  rw [Disk.runOps_cons, Disk.runOps_nil, DiskOp.run, Disk.set_self, hg]
  rfl

theorem WritesLog.trans {ops more : List (DiskOp FileName)} {c : Command} {w : List Command × Bytes}
    (h : WritesLog ops ([c], [])) (h' : WritesLog more w) : WritesLog (ops ++ more) (c :: w.1, w.2) := by
  intro d
  obtain ⟨h1, h2⟩ := h d
  obtain ⟨h3, h4⟩ := h' (d.runOps ops)
  rw [Disk.runOps_append]
  refine ⟨fun n hn => (h3 n hn).trans (h1 n hn), fun f hf => ?_⟩
  obtain ⟨g, hg, hb⟩ := h2 f hf
  obtain ⟨g', hg', hb'⟩ := h4 g hg
  refine ⟨g', hg', ?_⟩
  rw [hb', hb]
  simp

/-- One append. -/
theorem appendOr_spec (fault : Option AppendFault) (c : Command) :
    (Wal.Fits c.encode ∧ cut fault (Wal.frame c.encode) = none ∧
      ∃ ops, appendOr fault c.encode = (ops, .ok ()) ∧ WritesLog ops ([c], [])) ∨
    ∃ ops e, appendOr fault c.encode = (ops, .error e) ∧ WritesLog ops (writtenAll fault [c]) ∧
      (writtenAll fault [c]).1 = [] ∧ ∀ cs, writtenAll fault (c :: cs) = writtenAll fault [c] := by
  by_cases hfit : Wal.Fits c.encode
  · rcases hcut : cut fault (Wal.frame c.encode) with _ | ⟨part, e⟩
    · refine Or.inl ⟨hfit, rfl, [.file .wal (.append (Wal.frame c.encode))], ?_,
        writesLog_append _ _ (by simp)⟩
      simp only [appendOr, Wal.append_of_fits hfit, hcut]
    · refine Or.inr ⟨[.file .wal (.append part)], .io e, ?_, writesLog_append _ _ ?_, ?_, fun cs => ?_⟩
      · simp only [appendOr, Wal.append_of_fits hfit, hcut]
      · simp [writtenAll, hfit, hcut]
      · simp [writtenAll, hfit, hcut]
      · simp [writtenAll, hfit, hcut]
  · refine Or.inr ⟨[], .io ⟨.invalidInput, "wal: record exceeds 4 GiB"⟩, ?_, ?_, ?_, fun cs => ?_⟩
    · rw [appendOr, Wal.append, if_neg hfit]
      rfl
    · simp only [writtenAll, if_neg hfit]
      exact writesLog_nil
    · simp only [writtenAll, if_neg hfit]
    · simp only [writtenAll, if_neg hfit]

/-- The appends of a batch. -/
theorem appendAllOr_spec (fault : Option AppendFault) (cs : List Command) :
    ∃ ops r, appendAllOr fault cs = (ops, r) ∧ WritesLog ops (writtenAll fault cs) ∧
      (r = .ok () ↔ writtenAll fault cs = (cs, [])) := by
  induction cs generalizing fault with
  | nil => exact ⟨[], .ok (), rfl, writesLog_nil, iff_of_true rfl rfl⟩
  | cons c cs ih =>
    obtain ⟨hfit, hcut, ops, happ, hw⟩ | ⟨ops, e, happ, hw, hnone, hall⟩ := appendOr_spec fault c
    · obtain ⟨more, r, hmore, hw', hok⟩ := ih (fault.map AppendFault.next)
      have hall : writtenAll fault (c :: cs) = (c :: (writtenAll (fault.map AppendFault.next) cs).1,
          (writtenAll (fault.map AppendFault.next) cs).2) := by
        simp only [writtenAll, if_pos hfit, hcut]
      refine ⟨ops ++ more, r, by simp only [appendAllOr, happ, hmore], ?_, ?_⟩
      · rw [hall]
        exact hw.trans hw'
      · rw [hall, hok, Prod.ext_iff, Prod.ext_iff, List.cons_inj_right]
    · refine ⟨ops, .error e, by simp only [appendAllOr, happ], ?_, iff_of_false (fun hr => (nomatch hr)) ?_⟩
      · rw [hall]
        exact hw
      · rw [hall, Prod.ext_iff, hnone]
        exact fun h => (nomatch h.1)

/-- **A call** writes what it says, and is acknowledged exactly if this is everything; the store has a
    tree afterwards. -/
theorem runOr_spec {s : Store} {m : List (String × String)} (fault : Option AppendFault)
    (hs : s.data.Represents m) (mutation : Mutation) :
    WritesLog (mutation.runOr fault s).ops (mutation.written fault) ∧
    ((mutation.runOr fault s).result = .ok () ↔ mutation.written fault = (mutation.commands, [])) ∧
    ∃ m', (mutation.runOr fault s).store.data.Represents m' := by
  have happly : ∀ c : Command,
      WritesLog (s.applyOr fault c).ops (writtenAll fault [c]) ∧
      ((s.applyOr fault c).result = .ok () ↔ writtenAll fault [c] = ([c], [])) ∧
      ∃ m', (s.applyOr fault c).store.data.Represents m' := by
    intro c
    obtain ⟨data, hdata, hrep⟩ := applyMemory_spec c hs
    obtain ⟨hfit, hcut, ops, happ, hw⟩ | ⟨ops, e, happ, hw, hnone, -⟩ := appendOr_spec fault c
    · have hall : writtenAll fault [c] = ([c], []) := by simp only [writtenAll, if_pos hfit, hcut]
      simp only [applyOr, happ, hdata, hall]
      exact ⟨hw.sync, trivial, _, hrep⟩
    · simp only [applyOr, happ, Prod.ext_iff, hnone]
      exact ⟨hw, iff_of_false (fun hr => (nomatch hr)) fun h => (nomatch h.1), m, hs⟩
  cases mutation with
  | set key value => exact happly (.set key value)
  | delete key => exact happly (.delete key)
  | applyBatch commands =>
    by_cases hcp : (commands.any fun command => command == .checkpoint) = true
    · have hrun : (Mutation.applyBatch commands).runOr fault s =
          ⟨[], Res.fail .invalidInput "store: checkpoint is not a user mutation", s⟩ := if_pos hcp
      have hwritten : (Mutation.applyBatch commands).written fault = ([], []) := if_pos hcp
      rw [hrun, hwritten]
      refine ⟨writesLog_nil, iff_of_false (fun hr => (nomatch hr)) fun heq => ?_, m, hs⟩
      rw [show commands = [] from (congrArg Prod.fst heq).symm] at hcp
      cases hcp
    · have hwritten : (Mutation.applyBatch commands).written fault = writtenAll fault commands := if_neg hcp
      obtain ⟨ops, r, happ, hw, hok⟩ := appendAllOr_spec fault commands
      obtain ⟨data, hdata, hrep⟩ := foldlM_applyMemory commands hs
      rw [hwritten]
      simp only [Mutation.runOr, applyBatchOr, if_neg hcp, happ]
      rcases r with e | u
      · exact ⟨hw, hok, m, hs⟩
      · simp only [hdata]
        exact ⟨hw.sync, iff_of_true trivial (hok.1 rfl), _, hrep⟩

end Written

/-! ## Runs -/

/-- What is known of a state after a careful run that began with the map `m`. -/
structure Standing (m : List (String × String)) (steps : List (System × FaultLabel)) (sys : System) :
    Prop where
  pages : Settled sys.disk .pages
  bak : Settled sys.disk .bak
  log : ∃ base cs part, Snap (content sys.disk .pages) (content sys.disk .bak) base ∧
    Log (content sys.disk .wal) cs part ∧ applyCommands base cs = applyCommands m (logged steps) ∧
    ∀ s, sys.store = some s → part ≠ [] → Torn steps
  running : ∀ s, sys.store = some s → (∃ m', s.data.Represents m') ∧ ∃ f, sys.disk .wal = some f
  stopped : sys.store = none → Settled sys.disk .wal

section Runs
variable {m : List (String × String)} {steps : List (System × FaultLabel)} {sys sys' : System}
  {l : FaultLabel}

theorem content_ended (d : Disk FileName) (n : FileName) : content (ended d) n = content d n := by
  unfold content ended
  cases d n <;> rfl

theorem settled_ended (d : Disk FileName) (n : FileName) : Settled (ended d) n := by
  intro f hf
  obtain ⟨g, -, rfl⟩ := Option.map_eq_some_iff.1 hf
  rfl

theorem settled_of_eq {d d' : Disk FileName} {n : FileName} (heq : d' n = d n) (h : Settled d n) :
    Settled d' n := by
  intro f hf
  rw [heq] at hf
  exact h f hf

theorem ended_eq {d : Disk FileName} {n : FileName} (h : Settled d n) : ended d n = d n := by
  unfold ended
  rcases hd : d n with _ | f
  · rfl
  · rw [Option.map_some, ← h f hd]

/-- The map of the run is recovered after the process has ended. -/
theorem Standing.recoverable (h : Standing m steps sys) :
    Recoverable (ended sys.disk) (applyCommands m (logged steps)) := by
  obtain ⟨base, cs, part, hsnap, hlog, hm, -⟩ := h.log
  refine ⟨fun n _ => settled_ended sys.disk n, base, cs, part, ?_, ?_, hm⟩
  · rw [content_ended, content_ended]
    exact hsnap
  · rw [content_ended]
    exact hlog

theorem standing_start {s : Store} {d : Disk FileName} (h : Live s d m) : Standing m [] ⟨d, some s⟩ := by
  obtain ⟨base, cs, hsnap, hfits, hw, hm⟩ := h.wal
  refine ⟨h.settled _ (by decide), h.settled _ (by decide), ⟨base, cs, [], hsnap, ?_, hm, ?_⟩, ?_, ?_⟩
  · exact ⟨hfits, by simp [content, hw, File.settled], Wal.not_startsWithFrame_nil⟩
  · intro s _ hne
    exact absurd rfl hne
  · rintro s' hs
    cases hs
    exact ⟨⟨m, h.data⟩, _, hw⟩
  · rintro hs
    cases hs

/-- What a call adds to the mutations of the run. -/
theorem logged_called (sys : System) (steps : List (System × FaultLabel)) {mutation : Mutation}
    {fault : Option AppendFault} {r : Res Unit}
    (hok : r = .ok () → mutation.written fault = (mutation.commands, [])) :
    logged ((sys, .called mutation fault r) :: steps) = logged steps ++ (mutation.written fault).1 := by
  rcases r with e | u
  · rfl
  · rw [hok rfl]
    rfl

/-- **A call.** -/
theorem Standing.called {d : Disk FileName} {s : Store} (h : Standing m steps ⟨d, some s⟩)
    (mutation : Mutation) (fault : Option AppendFault)
    (hcare : mutation.written fault ≠ ([], []) → ¬ Torn steps) :
    Standing m ((⟨d, some s⟩, .called mutation fault (mutation.runOr fault s).result) :: steps)
      ⟨d.runOps (mutation.runOr fault s).ops, some (mutation.runOr fault s).store⟩ := by
  obtain ⟨⟨m', hs⟩, f, hf⟩ := h.running s rfl
  simp only at hf
  obtain ⟨hw, hok, hstore⟩ := runOr_spec fault hs mutation
  obtain ⟨hfits, hpart⟩ := written_fits mutation fault
  obtain ⟨hother, hwal⟩ := hw d
  obtain ⟨g, hg, hb⟩ := hwal f hf
  have hlogged := logged_called ⟨d, some s⟩ steps hok.1
  obtain ⟨base, cs, part, hsnap, hlog, hm, htorn⟩ := h.log
  simp only at hsnap hlog
  have hbytes := hlog.bytes
  rw [content, hf, Option.map_some, Option.getD_some] at hbytes
  -- if something is written then nothing torn is in front of it
  have hempty : mutation.written fault ≠ ([], []) → part = [] := fun hne => by
    by_contra hp
    exact hcare hne (htorn s rfl hp)
  refine ⟨?_, ?_, ?_, ?_, fun hs => by cases hs⟩
  · exact settled_of_eq (hother .pages (by decide)) h.pages
  · exact settled_of_eq (hother .bak (by decide)) h.bak
  · have hsnap' : Snap (content (d.runOps (mutation.runOr fault s).ops) .pages)
        (content (d.runOps (mutation.runOr fault s).ops) .bak) base := by
      rw [content, content, hother .pages (by decide), hother .bak (by decide)]
      exact hsnap
    have hwal' : content (d.runOps (mutation.runOr fault s).ops) .wal = some g.bytes := by
      rw [content, hg]
      rfl
    rw [hlogged]
    by_cases hne : mutation.written fault = ([], [])
    · refine ⟨base, cs, part, hsnap', ⟨hlog.fits, ?_, hlog.torn⟩, ?_, fun s' _ hp => ?_⟩
      · rw [show content _ FileName.wal = some g.bytes from hwal', Option.getD_some, hb, hne, hbytes]
        simp
      · rw [hne, List.append_nil]
        exact hm
      · exact ⟨by simp, Or.inr (htorn s rfl hp)⟩
    · obtain rfl := hempty hne
      refine ⟨base, cs ++ (mutation.written fault).1, (mutation.written fault).2, hsnap', ⟨?_, ?_, hpart⟩,
        ?_, fun s' _ hp => ⟨by simp, Or.inl hp⟩⟩
      · intro c hc
        rcases List.mem_append.1 hc with hc | hc
        · exact hlog.fits c hc
        · exact hfits c hc
      · rw [show content _ FileName.wal = some g.bytes from hwal', Option.getD_some, hb, hbytes]
        simp
      · rw [applyCommands, List.foldl_append, applyCommands, List.foldl_append]
        exact congrArg (fun m => List.foldl applyCommand m _) hm
  · rintro s' hs'
    cases hs'
    exact ⟨hstore, g, hg⟩

/-- **One step** of a careful run. -/
theorem Standing.step (h : Standing m steps sys) (hcare : l.Writes → ¬ Torn steps)
    (hstep : FaultStep sys l sys') : Standing m ((sys, l) :: steps) sys' := by
  cases hstep with
  | @opened d ops s hopen =>
    have hrec := h.recoverable
    have hsame : ∀ n, n ≠ .tmp → ended d n = d n := by
      intro n hn
      cases n with
      | wal => exact ended_eq (h.stopped rfl)
      | pages => exact ended_eq h.pages
      | bak => exact ended_eq h.bak
      | tmp => exact absurd rfl hn
    have hrec : Recoverable d (applyCommands m (logged steps)) :=
      hrec.congr (hsame _ (by decide)).symm (hsame _ (by decide)).symm (hsame _ (by decide)).symm
    obtain ⟨ops', s', hopen', hlive, -⟩ := open_spec hrec
    rw [hopen] at hopen'
    cases hopen'
    obtain ⟨h1, h2, ⟨base, cs, part, hsnap, hlog, hm, htorn⟩, h4, h5⟩ := standing_start hlive
    refine ⟨h1, h2, ⟨base, cs, part, hsnap, hlog, hm, ?_⟩, h4, h5⟩
    intro s hs hp
    exact (htorn s hs hp).elim
  | @closed d s =>
    obtain ⟨base, cs, part, hsnap, hlog, hm, -⟩ := h.log
    refine ⟨settled_ended d _, settled_ended d _, ⟨base, cs, part, ?_, ?_, hm, fun s hs => (nomatch hs)⟩,
      fun s hs => (nomatch hs), fun _ => settled_ended d _⟩
    · rw [content_ended, content_ended]
      exact hsnap
    · rw [content_ended]
      exact hlog
  | @called d s mutation fault => exact h.called mutation fault hcare

theorem standing_run {s : Store} {d : Disk FileName} (hlive : Live s d m)
    (hrun : Trace FaultStep ⟨d, some s⟩ steps sys) (hcare : Careful steps) : Standing m steps sys := by
  induction hrun with
  | refl => exact standing_start hlive
  | step _ hs ih => exact (ih hcare.2).step hcare.1 hs

/-- **What is recovered**: after a careful run, the map with all acknowledged mutations, and those of
    the failed calls whose records were written. -/
theorem recovers_logged {s : Store} {d : Disk FileName} (hlive : Live s d m)
    (hrun : Trace FaultStep ⟨d, some s⟩ steps sys) (hcare : Careful steps) :
    Recovers (applyCommands m (logged steps)) sys.disk := by
  obtain ⟨ops, s', hopen, hlive', -⟩ := open_spec (standing_run hlive hrun hcare).recoverable
  exact ⟨ops, s', hopen, BTreeIndex.entries_spec hlive'.data⟩

/-! ## Known values -/

/-- A list of commands behind another one. -/
theorem lookup_applyCommands_append (xs cs : List Command) (key : String) :
    (applyCommands m (xs ++ cs)).lookup key = (lastDecision key cs).getD ((applyCommands m xs).lookup key) := by
  rw [applyCommands, List.foldl_append]
  exact lookup_applyCommands _ cs key

/-- A key that is known after further commands, and not decided by them, was known before. -/
theorem known_of_append {xs cs : List Command} {key : String} (hnone : lastDecision key cs = none)
    (h : (m.lookup key).isSome ∨ (lastDecision key (xs ++ cs)).isSome) :
    (m.lookup key).isSome ∨ (lastDecision key xs).isSome := by
  refine h.imp_right fun h => ?_
  rwa [lastDecision, List.foldl_append, foldl_or_decides, hnone, Option.none_or] at h

/-- A call that is not acknowledged adds nothing to the acknowledged mutations. -/
theorem acknowledged_failed (mutation : Mutation) (fault : Option AppendFault) {r : Res Unit} (hr : r ≠ .ok ()) :
    acknowledged ((sys, .called mutation fault r) :: steps) = acknowledged steps := by
  rcases r with e | u
  · rfl
  · exact absurd rfl hr

/-- A call that leaves no whole record, and one that writes all of them. -/
theorem spares_of_none {mutation : Mutation} {fault : Option AppendFault} {r : Res Unit}
    (h : (mutation.written fault).1 = []) : FaultLabel.Spares m steps (.called mutation fault r) := by
  intro _ key value _ hlast
  rw [h] at hlast
  cases hlast

theorem spares_of_all {mutation : Mutation} {fault : Option AppendFault} {r : Res Unit}
    (h : mutation.written fault = (mutation.commands, [])) :
    FaultLabel.Spares m steps (.called mutation fault r) :=
  fun hne => absurd h hne

/-- **The log agrees** with the acknowledged mutations on the known keys. -/
theorem lookup_logged {s : Store} {d : Disk FileName} (hlive : Live s d m)
    (hrun : Trace FaultStep ⟨d, some s⟩ steps sys) (hcare : Careful steps) (hspare : Sparing m steps)
    {key : String} (hknown : Known m steps key) :
    (applyCommands m (logged steps)).lookup key = (applyCommands m (acknowledged steps)).lookup key := by
  induction hrun with
  | refl => rfl
  | @step sys sys' l steps hrun hstep ih =>
    have ih := ih hcare.2 hspare.2
    cases hstep with
    | opened hopen => exact ih hknown
    | closed => exact ih hknown
    | @called d s mutation fault =>
      obtain ⟨⟨m', hs⟩, -⟩ := (standing_run hlive hrun hcare.2).running s rfl
      obtain ⟨-, hok, -⟩ := runOr_spec fault hs mutation
      rw [logged_called _ _ hok.1, lookup_applyCommands_append]
      by_cases hr : (mutation.runOr fault s).result = .ok ()
      · rw [Known, hr] at hknown
        rw [hr, hok.1 hr, acknowledged, lookup_applyCommands_append]
        rcases hlast : lastDecision key mutation.commands with _ | value
        · exact ih (known_of_append hlast hknown)
        · rfl
      · rw [Known, acknowledged_failed _ _ hr] at hknown
        rw [acknowledged_failed _ _ hr]
        rcases hlast : lastDecision key (mutation.written fault).1 with _ | value
        · exact ih hknown
        · exact hspare.1 (fun h => hr (hok.2 h)) key value hknown hlast

end Runs

/-- **Acknowledged mutations survive failed appends**: from a running store, after every run in
    which no call writes behind a part of a record, and no failing batch leaves records that change
    a known value, the store that is opened next has all acknowledged mutations. -/
theorem acknowledged_survive {s : Store} {d : Disk FileName} {m : List (String × String)}
    {steps : List (System × FaultLabel)} {sys : System} (hlive : Live s d m)
    (hrun : Trace FaultStep ⟨d, some s⟩ steps sys) (hcare : Careful steps) (hspare : Sparing m steps) :
    KeepsAcknowledged m steps sys.disk :=
  ⟨_, recovers_logged hlive hrun hcare, fun _ hknown => lookup_logged hlive hrun hcare hspare hknown⟩

/-- What is recovered is one map. -/
theorem Recovers.unique {m m' : List (String × String)} {d : Disk FileName} (h : Recovers m d)
    (h' : Recovers m' d) : m = m' := by
  obtain ⟨ops, s, hopen, hm⟩ := h
  obtain ⟨ops', s', hopen', hm'⟩ := h'
  rw [hopen] at hopen'
  cases hopen'
  exact Except.ok.inj (hm.symm.trans hm')

/-- A new store. -/
def newStore : Store := ⟨BTreeIndex.new, ⟨0, false, 0⟩⟩

theorem newStore_live : Live newStore (files (some []) none none none) [] := by
  refine ⟨BTreeIndex.new_represents, fun n _ f hf => ?_, [], [], .none, by simp, rfl, rfl⟩
  cases n with
  | wal => cases hf; rfl
  | pages => cases hf
  | bak => cases hf
  | tmp => cases hf

/-- The error of a full disk. -/
def diskFull : IoError := ⟨.writeZero, "failed to write whole buffer"⟩

theorem step_called {d d' : Disk FileName} {s s' : Store} (mutation : Mutation) (fault : Option AppendFault)
    {ops : List (DiskOp FileName)} {r : Res Unit} (hrun : mutation.runOr fault s = ⟨ops, r, s'⟩)
    (hd : d.runOps ops = d') : FaultStep ⟨d, some s⟩ (.called mutation fault r) ⟨d', some s'⟩ := by
  have := FaultStep.called (d := d) (s := s) mutation fault
  rwa [hrun, hd] at this

/-- A batch fails behind its first record, and an append behind the first byte of its record. -/
theorem acknowledged_survive_part : ∃ steps sys m',
    Trace FaultStep ⟨files (some []) none none none, some newStore⟩ steps sys ∧
    steps.map Prod.snd = [.called (.set "b" "5") (some ⟨0, 1, diskFull⟩) (.error (.io diskFull)),
      .called (.set "d" "4") none (.ok ()),
      .called (.applyBatch [.set "c" "3", .set "b" "2"]) (some ⟨1, 0, diskFull⟩) (.error (.io diskFull)),
      .called (.set "a" "1") none (.ok ())] ∧
    Recovers m' sys.disk ∧ m'.lookup "a" = some "1" ∧ m'.lookup "d" = some "4" := by
  have h1 : (Mutation.set "a" "1").written none = ([.set "a" "1"], []) := by decide +kernel
  have h2 : (Mutation.applyBatch [.set "c" "3", .set "b" "2"]).written (some ⟨1, 0, diskFull⟩) =
      ([.set "c" "3"], []) := by decide +kernel
  have h3 : (Mutation.set "d" "4").written none = ([.set "d" "4"], []) := by decide +kernel
  have h4 : ((Mutation.set "b" "5").written (some ⟨0, 1, diskFull⟩)).1 = [] := by decide +kernel
  have hrun : Trace FaultStep _ _ _ := .refl ⟨files (some []) none none none, some newStore⟩
  have hrun := hrun.step (step_called (.set "a" "1") none rfl rfl)
  have hrun := hrun.step (step_called (.applyBatch [.set "c" "3", .set "b" "2"]) (some ⟨1, 0, diskFull⟩) rfl rfl)
  have hrun := hrun.step (step_called (.set "d" "4") none rfl rfl)
  have hrun := hrun.step (step_called (.set "b" "5") (some ⟨0, 1, diskFull⟩) rfl rfl)
  -- the batch leaves the record of a key that nothing acknowledged is about
  have hspare : ∀ r steps, acknowledged steps = [.set "a" "1"] → FaultLabel.Spares [] steps
      (.called (.applyBatch [.set "c" "3", .set "b" "2"]) (some ⟨1, 0, diskFull⟩) r) := by
    intro r steps hack _ key value hknown hlast
    rw [h2] at hlast
    rw [Known, hack] at hknown
    by_cases hc : "c" = key
    · subst hc
      simp [lastDecision, decides] at hknown
    · simp [lastDecision, decides, hc] at hlast
  have hsurvive := acknowledged_survive newStore_live hrun
    (by simp [Careful, Torn, FaultLabel.LeavesPart, h1, h2, h3])
  obtain ⟨m', hrec, hkeeps⟩ := hsurvive ⟨spares_of_none h4, spares_of_all h3, hspare _ _ rfl, spares_of_all h1, trivial⟩
  exact ⟨_, _, m', hrun, rfl, hrec, hkeeps "a" (Or.inr rfl), hkeeps "d" (Or.inr rfl)⟩

/-- A run in which an append fails behind the first byte of its record, and the next call returns. -/
theorem part_run : ∃ steps sys, Trace FaultStep ⟨files (some []) none none none, some newStore⟩ steps sys ∧
    steps.map Prod.snd = [.called (.set "b" "2") none (.ok ()),
      .called (.set "a" "1") (some ⟨0, 1, diskFull⟩) (.error (.io diskFull))] ∧
    sys.disk .pages = none ∧ sys.disk .bak = none ∧ ∃ f, sys.disk .wal = some f ∧
      f.bytes = (Wal.frame (Command.set "a" "1").encode).take 1 ++ Wal.frame (Command.set "b" "2").encode := by
  have hrun : Trace FaultStep _ _ _ := .refl ⟨files (some []) none none none, some newStore⟩
  have hrun := hrun.step (step_called (.set "a" "1") (some ⟨0, 1, diskFull⟩) rfl rfl)
  have hrun := hrun.step (step_called (.set "b" "2") none rfl rfl)
  exact ⟨_, _, hrun, rfl, rfl, rfl, _, rfl, rfl⟩

/-- The acknowledged mutation is lost: the store that is opened next is empty. -/
theorem not_recovers_part : ∃ steps sys, Trace FaultStep ⟨files (some []) none none none, some newStore⟩ steps sys ∧
    steps.map Prod.snd = [.called (.set "b" "2") none (.ok ()),
      .called (.set "a" "1") (some ⟨0, 1, diskFull⟩) (.error (.io diskFull))] ∧
    Recovers [] sys.disk ∧ ¬ KeepsAcknowledged [] steps sys.disk := by
  obtain ⟨steps, sys, hrun, hlabels, hpages, hbak, f, hf, hbytes⟩ := part_run
  have hwal : ¬ Wal.StartsWithFrame f.bytes := by
    rintro ⟨p, rest, hp, heq⟩
    have hlen := Wal.ofLe_take_frame hp rest
    rw [← heq, hbytes] at hlen
    have hsize : 100 ≤ List.length p := by
      rw [← hlen]
      decide +kernel
    have htot := congrArg List.length heq
    rw [hbytes, List.length_append, List.length_take, Wal.length_frame, Wal.length_frame,
      List.length_append, Wal.length_frame] at htot
    have hsmall : List.length (Command.set "b" "2").encode ≤ 50 := by decide +kernel
    rw [Wal.HEADER_LEN] at htot
    omega
  have hrec : Recoverable (ended sys.disk) [] := by
    refine ⟨fun n _ => settled_ended sys.disk n, [], [], f.bytes, ?_, ⟨by simp, ?_, hwal⟩, rfl⟩
    · rw [content_ended, content_ended, content, content, hpages, hbak]
      exact .none
    · rw [content_ended, content, hf]
      rfl
  obtain ⟨ops, s, hopen, hlive, -⟩ := open_spec hrec
  have hrec : Recovers [] sys.disk := ⟨ops, s, hopen, BTreeIndex.entries_spec hlive.data⟩
  refine ⟨steps, sys, hrun, hlabels, hrec, ?_⟩
  have hacknowledged : acknowledged steps = [.set "b" "2"] := by
    obtain ⟨⟨_, _⟩, _, rfl, rfl, hrest⟩ := List.map_eq_cons_iff.1 hlabels
    obtain ⟨⟨_, _⟩, _, rfl, rfl, hnil⟩ := List.map_eq_cons_iff.1 hrest
    cases List.map_eq_nil_iff.1 hnil
    rfl
  rintro ⟨m', hrec', hkeeps⟩
  obtain rfl := hrec.unique hrec'
  have hb := hkeeps "b" (Or.inr (by rw [hacknowledged]; rfl))
  rw [hacknowledged] at hb
  exact absurd hb (by decide)

/-- The acknowledged mutation is undone: a batch that fails at its second append has changed the value,
    though no append has written a part of a record. -/
theorem not_recovers_batch : ∃ steps sys, Trace FaultStep ⟨files (some []) none none none, some newStore⟩ steps sys ∧
    steps.map Prod.snd = [.called (.applyBatch [.set "a" "9", .set "b" "2"]) (some ⟨1, 0, diskFull⟩)
        (.error (.io diskFull)), .called (.set "a" "1") none (.ok ())] ∧
    Careful steps ∧ Recovers [("a", "9")] sys.disk ∧ ¬ KeepsAcknowledged [] steps sys.disk := by
  have h1 : (Mutation.set "a" "1").written none = ([.set "a" "1"], []) := by decide +kernel
  have h2 : (Mutation.applyBatch [.set "a" "9", .set "b" "2"]).written (some ⟨1, 0, diskFull⟩) =
      ([.set "a" "9"], []) := by decide +kernel
  have hrun : Trace FaultStep _ _ _ := .refl ⟨files (some []) none none none, some newStore⟩
  have hrun := hrun.step (step_called (.set "a" "1") none rfl rfl)
  have hrun := hrun.step (step_called (.applyBatch [.set "a" "9", .set "b" "2"]) (some ⟨1, 0, diskFull⟩) rfl rfl)
  have hrec := recovers_logged newStore_live hrun
    (by simp [Careful, Torn, FaultLabel.LeavesPart, h1])
  simp only [logged, h2] at hrec
  refine ⟨_, _, hrun, rfl, by simp [Careful, Torn, FaultLabel.LeavesPart, h1], hrec, ?_⟩
  rintro ⟨m', hrec', hkeeps⟩
  obtain rfl := hrec.unique hrec'
  exact absurd (hkeeps "a" (Or.inr rfl)) (by decide)

end Store

end NutDb
