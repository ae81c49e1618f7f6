/-
  Crash recovery of the store.

  The system is a directory and a store that may be running on it.  It takes
  steps: opening, calls that return, and crashes at any point between the file
  operations of a call or of an opening.  The history of a run is the list of
  the commands of its acknowledged calls, in order, with some prefix of the
  commands of the call in flight at each crash.

  Two kinds of steps break the correspondence between the store and its
  history; `Allowed` excludes exactly them.  For every other run the history
  explains every state (`run_explained`).
-/
import NutDb.StoreFiles

namespace NutDb

open Lib BTree

namespace Store

/-! ## The system -/

/-- Calls of a running store. -/
inductive Call where
  | set (key value : String)
  | delete (key : String)
  | applyBatch (commands : List Command)
  | checkpoint
  deriving DecidableEq, Repr

/-- What a call does. -/
def Call.run (s : Store) (d : Disk FileName) : Call → Outcome
  | .set key value => s.set key value
  | .delete key => s.delete key
  | .applyBatch commands => s.applyBatch commands
  | .checkpoint => s.checkpoint d

/-- The mutations a call asks for. -/
def Call.commands : Call → List Command
  | .set key value => [.set key value]
  | .delete key => [.delete key]
  | .applyBatch commands => commands
  | .checkpoint => []

/-- A directory and the store that is running on it, if one is. -/
structure System where
  disk : Disk FileName
  store : Option Store

/-- What happens in a step: `after` counts the operations issued before a crash. -/
inductive Label where
  | opened
  | openFailed
  | openCrash (after : ℕ)
  | called (call : Call) (result : Res Unit)
  | callCrash (call : Call) (after : ℕ)
  | crash
  deriving DecidableEq

/-- The steps of the system. -/
inductive Step : System → Label → System → Prop
  | opened {d ops s} : openStore d = (ops, .ok s) → Step ⟨d, none⟩ .opened ⟨d.runOps ops, some s⟩
  | openFailed {d ops e} : openStore d = (ops, .error e) →
      Step ⟨d, none⟩ .openFailed ⟨d.runOps ops, none⟩
  | openCrash {d d' k} : (d.runOps ((openStore d).1.take k)).Crashed d' →
      Step ⟨d, none⟩ (.openCrash k) ⟨d', none⟩
  | called {d s} (call : Call) :
      Step ⟨d, some s⟩ (.called call (call.run s d).result)
        ⟨d.runOps (call.run s d).ops, some (call.run s d).store⟩
  | callCrash {d d' s k} (call : Call) : (d.runOps ((call.run s d).ops.take k)).Crashed d' →
      Step ⟨d, some s⟩ (.callCrash call k) ⟨d', none⟩
  | crash {d d' s} : d.Crashed d' → Step ⟨d, s⟩ .crash ⟨d', none⟩

/-- An empty directory. -/
def initial : System := ⟨fun _ => none, none⟩

/-- The runs of the system from an empty directory, with the steps taken, newest first. -/
inductive Run : List (System × Label) → System → Prop
  | start : Run [] initial
  | step {steps sys l sys'} : Run steps sys → Step sys l sys' → Run ((sys, l) :: steps) sys'

/-! ## Histories -/

/-- How a step extends the history: acknowledged calls count, failed ones do not, and of the call
    that a crash interrupts a prefix may count. -/
def Extends : Label → List Command → List Command → Prop
  | .called call (.ok ()), h, h' => h' = h ++ call.commands
  | .callCrash call _, h, h' => ∃ n, h' = h ++ call.commands.take n
  | _, h, h' => h' = h

/-- The map of a state: that of the running store, or that of the store that an opening returns,
    which has to succeed. -/
def Shows (sys : System) (m : List (String × String)) : Prop :=
  match sys.store with
  | some s => s.data.entries = .ok m
  | none => ∃ ops s, openStore sys.disk = (ops, .ok s) ∧ s.data.entries = .ok m

/-- A history for the whole run: it grows with every step as it has to, and every state shows the
    map of the history so far. -/
inductive Explained : List (System × Label) → System → List Command → Prop
  | start : Shows initial [] → Explained [] initial []
  | step {steps sys l sys' h h'} : Explained steps sys h → Extends l h h' →
      Shows sys' (applyCommands [] h') → Explained ((sys, l) :: steps) sys' h'

/-- A batch that is given up in the middle: a record that the log rejects comes after one that it
    accepted. -/
def GivenUp (commands : List Command) : Prop :=
  .checkpoint ∉ commands ∧ ∃ c cs, commands = c :: cs ∧ Wal.Fits c.encode ∧
    ∃ c' ∈ cs, ¬ Wal.Fits c'.encode

/-- The steps that do not break recovery: no batch is given up in the middle, and no crash comes
    after the removal of the backup and before the renaming of the new snapshot in a checkpoint
    that began when the backup was the only snapshot. -/
def Allowed : System → Label → Prop
  | _, .called (.applyBatch commands) _ => ¬ GivenUp commands
  | ⟨d, some s⟩, .callCrash .checkpoint k =>
    ¬ (d .pages = none ∧ d .bak ≠ none ∧ s.data.saveTemp.2 = .ok () ∧
      k = s.data.saveTemp.1.length + 1)
  | _, _ => True

/-! ## Calls -/

section Calls
variable {d d' : Disk FileName} {m : List (String × String)} {s : Store}

/-- What the loop of a batch appends: the records before the first one that the log rejects. -/
theorem appendAll_spec (cs : List Command) : ∃ cs₁ cs₂, cs = cs₁ ++ cs₂ ∧
    (∀ c ∈ cs₁, Wal.Fits c.encode) ∧ (appendAll cs).1 = appendOps cs₁ ∧
    ((cs₂ = [] ∧ (appendAll cs).2 = .ok ()) ∨
      ∃ c cs' e, cs₂ = c :: cs' ∧ ¬ Wal.Fits c.encode ∧ (appendAll cs).2 = .error e) := by
  induction cs with
  | nil => exact ⟨[], [], rfl, by simp, rfl, Or.inl ⟨rfl, rfl⟩⟩
  | cons c cs ih =>
    by_cases hfit : Wal.Fits c.encode
    · obtain ⟨cs₁, cs₂, h1, h2, h3, h4⟩ := ih
      refine ⟨c :: cs₁, cs₂, by rw [h1]; rfl, ?_, ?_, ?_⟩
      · intro c' hc'
        rcases List.mem_cons.1 hc' with rfl | hc'
        · exact hfit
        · exact h2 c' hc'
      · simp only [appendAll, Wal.append_of_fits hfit, h3]; rfl
      · simp only [appendAll, Wal.append_of_fits hfit]; exact h4
    · have herr : appendAll (c :: cs) = ([], Res.fail .invalidInput "wal: record exceeds 4 GiB") := by
        simp only [appendAll, Wal.append, if_neg hfit]; rfl
      rw [herr]
      exact ⟨[], c :: cs, rfl, by simp, rfl, Or.inr ⟨c, cs, _, rfl, hfit, rfl⟩⟩

/-- A single mutation. -/
theorem apply_cases (hl : Live s d m) (c : Command) :
    (Wal.Fits c.encode ∧ ∃ s', s.apply c = ⟨appendOps [c] ++ [.file .wal .sync], .ok (), s'⟩ ∧
      s'.data.Represents (applyCommands m [c])) ∨
    ∃ e, s.apply c = ⟨[], .error e, s⟩ := by
  by_cases hfit : Wal.Fits c.encode
  · obtain ⟨data, hdata, hrep⟩ := applyMemory_spec c hl.data
    refine Or.inl ⟨hfit, { s with data := data }, ?_, hrep⟩
    simp only [apply, Wal.append_of_fits hfit, hdata]
    rfl
  · exact Or.inr ⟨_, by simp only [apply, Wal.append, if_neg hfit]; rfl⟩

/-- A batch. -/
theorem applyBatch_cases (hl : Live s d m) (cs : List Command) :
    ((∀ c ∈ cs, Wal.Fits c.encode) ∧
      ∃ s', s.applyBatch cs = ⟨appendOps cs ++ [.file .wal .sync], .ok (), s'⟩ ∧
        s'.data.Represents (applyCommands m cs)) ∨
    (∃ e, s.applyBatch cs = ⟨[], .error e, s⟩) ∨
    (GivenUp cs ∧ ∃ cs₁ cs₂ e, cs = cs₁ ++ cs₂ ∧ (∀ c ∈ cs₁, Wal.Fits c.encode) ∧
      s.applyBatch cs = ⟨appendOps cs₁, .error e, s⟩) := by
  by_cases hcp : cs.any (fun command => command == .checkpoint) = true
  · exact Or.inr (Or.inl ⟨_, by rw [applyBatch, if_pos hcp]; rfl⟩)
  have hno : .checkpoint ∉ cs := by simpa using hcp
  obtain ⟨cs₁, cs₂, h1, h2, h3, ⟨h4, h5⟩ | ⟨c, cs', e, h4, h5, h6⟩⟩ := appendAll_spec cs
  · have heq : appendAll cs = (appendOps cs₁, .ok ()) := Prod.ext h3 h5
    have hcs : cs = cs₁ := by rw [h1, h4, List.append_nil]
    obtain ⟨data, hdata, hrep⟩ := foldlM_applyMemory cs hl.data
    refine Or.inl ⟨hcs ▸ h2, { s with data := data }, ?_, hrep⟩
    simp only [applyBatch, if_neg hcp, heq, hdata, ← hcs]
  · have heq : appendAll cs = (appendOps cs₁, .error e) := Prod.ext h3 h6
    have hrun : s.applyBatch cs = ⟨appendOps cs₁, .error e, s⟩ := by
      simp only [applyBatch, if_neg hcp, heq]
    rcases cs₁ with _ | ⟨c₁, cs₁⟩
    · exact Or.inr (Or.inl ⟨e, hrun⟩)
    · refine Or.inr (Or.inr ⟨⟨hno, c₁, cs₁ ++ cs₂, h1, h2 c₁ (by simp), c, by simp [h4], h5⟩,
        c₁ :: cs₁, cs₂, e, h1, h2, hrun⟩)

/-- **A call that returns**: an acknowledged one adds its commands, a failed one nothing. -/
theorem called_spec (hl : Live s d m) (call : Call)
    (hok : Allowed ⟨d, some s⟩ (.called call (call.run s d).result)) :
    ∃ cs, ((call.run s d).result = .ok () → cs = call.commands) ∧
      ((call.run s d).result ≠ .ok () → cs = []) ∧
      Live (call.run s d).store (d.runOps (call.run s d).ops) (applyCommands m cs) := by
  have hfailed : ∀ {e : Fault}, call.run s d = ⟨[], .error e, s⟩ →
      ∃ cs, ((call.run s d).result = .ok () → cs = call.commands) ∧
        ((call.run s d).result ≠ .ok () → cs = []) ∧
        Live (call.run s d).store (d.runOps (call.run s d).ops) (applyCommands m cs) := by
    intro e he
    rw [he]
    exact ⟨[], by simp, by simp, hl⟩
  have hdone : ∀ {s' : Store}, call.run s d =
      ⟨appendOps call.commands ++ [.file .wal .sync], .ok (), s'⟩ →
      (∀ c ∈ call.commands, Wal.Fits c.encode) →
      s'.data.Represents (applyCommands m call.commands) →
      ∃ cs, ((call.run s d).result = .ok () → cs = call.commands) ∧
        ((call.run s d).result ≠ .ok () → cs = []) ∧
        Live (call.run s d).store (d.runOps (call.run s d).ops) (applyCommands m cs) := by
    intro s' he hfit hrep
    rw [he]
    exact ⟨call.commands, by simp, by simp, append_done _ hl hfit hrep⟩
  cases call with
  | set key value =>
    rcases apply_cases hl (.set key value) with ⟨hfit, s', he, hrep⟩ | ⟨e, he⟩
    · exact hdone he (by simpa [Call.commands] using hfit) hrep
    · exact hfailed he
  | delete key =>
    rcases apply_cases hl (.delete key) with ⟨hfit, s', he, hrep⟩ | ⟨e, he⟩
    · exact hdone he (by simpa [Call.commands] using hfit) hrep
    · exact hfailed he
  | applyBatch cs =>
    rcases applyBatch_cases hl cs with ⟨hfit, s', he, hrep⟩ | ⟨e, he⟩ | ⟨hgiven, -⟩
    · exact hdone he hfit hrep
    · exact hfailed he
    · exact absurd hgiven hok
  | checkpoint => exact ⟨[], by simp [Call.commands], by simp, (checkpoint_spec hl).1⟩

/-- **A call that a crash interrupts** adds a prefix of its commands. -/
theorem callCrash_spec {k : ℕ} (hl : Live s d m) (call : Call)
    (hok : Allowed ⟨d, some s⟩ (.callCrash call k))
    (hc : (d.runOps ((call.run s d).ops.take k)).Crashed d') :
    ∃ n, Recoverable d' (applyCommands m (call.commands.take n)) := by
  have hfailed : ∀ {e : Fault}, call.run s d = ⟨[], .error e, s⟩ →
      ∃ n, Recoverable d' (applyCommands m (call.commands.take n)) := by
    intro e he
    rw [he] at hc
    exact ⟨0, hl.recoverable.crashed (by simpa using hc)⟩
  have hdone : ∀ {s' : Store}, call.run s d =
      ⟨appendOps call.commands ++ [.file .wal .sync], .ok (), s'⟩ →
      (∀ c ∈ call.commands, Wal.Fits c.encode) →
      ∃ n, Recoverable d' (applyCommands m (call.commands.take n)) := by
    intro s' he hfit
    rw [he] at hc
    exact append_sync_crash hl hfit hc
  cases call with
  | set key value =>
    rcases apply_cases hl (.set key value) with ⟨hfit, s', he, hrep⟩ | ⟨e, he⟩
    · exact hdone he (by simpa [Call.commands] using hfit)
    · exact hfailed he
  | delete key =>
    rcases apply_cases hl (.delete key) with ⟨hfit, s', he, hrep⟩ | ⟨e, he⟩
    · exact hdone he (by simpa [Call.commands] using hfit)
    · exact hfailed he
  | applyBatch cs =>
    rcases applyBatch_cases hl cs with
      ⟨hfit, s', he, hrep⟩ | ⟨e, he⟩ | ⟨-, cs₁, cs₂, e, hcs, hfit, he⟩
    · exact hdone he hfit
    · exact hfailed he
    · -- also a batch that would be given up keeps a prefix
      simp only [Call.run, he] at hc
      rw [appendOps, ← List.map_take, ← appendOps] at hc
      obtain ⟨n, hn⟩ := append_crash hl (fun c hc => hfit c (List.mem_of_mem_take hc)) hc
      refine ⟨min (min n k) cs₁.length, ?_⟩
      have : cs.take (min (min n k) cs₁.length) = (cs₁.take k).take n := by
        rw [hcs, List.take_append_of_le_length (by omega), ← List.take_take, List.take_length,
          List.take_take]
      rw [Call.commands, this]
      exact hn
  | checkpoint => exact ⟨0, (checkpoint_spec hl).2 k d' hok hc⟩

end Calls

/-! ## Runs -/

/-- The invariant of the system. -/
def Inv (sys : System) (m : List (String × String)) : Prop :=
  match sys.store with
  | some s => Live s sys.disk m
  | none => Recoverable sys.disk m

theorem Inv.shows {sys : System} {m : List (String × String)} (h : Inv sys m) : Shows sys m := by
  rcases sys with ⟨d, _ | s⟩
  · obtain ⟨ops, s, hopen, hlive, -⟩ := open_spec h
    exact ⟨ops, s, hopen, BTreeIndex.entries_spec hlive.data⟩
  · exact BTreeIndex.entries_spec h.data

theorem inv_initial : Inv initial [] := show Recoverable initial.disk [] from
  ⟨fun _ _ f hf => (nomatch hf),
    [], [], [], Snap.none, ⟨by simp, rfl, Wal.not_startsWithFrame_nil⟩, rfl⟩

/-- **One step** keeps the invariant, with a history extended as it has to be. -/
theorem step_inv {sys sys' : System} {l : Label} {h : List Command}
    (hinv : Inv sys (applyCommands [] h)) (hstep : Step sys l sys') (hok : Allowed sys l) :
    ∃ h', Extends l h h' ∧ Inv sys' (applyCommands [] h') := by
  have happ : ∀ cs, applyCommands [] (h ++ cs) = applyCommands (applyCommands [] h) cs :=
    fun cs => List.foldl_append
  cases hstep with
  | opened hopen =>
    obtain ⟨ops, s, hopen', hlive, -⟩ := open_spec hinv
    rw [hopen] at hopen'; cases hopen'
    exact ⟨h, rfl, hlive⟩
  | openFailed hopen =>
    obtain ⟨ops, s, hopen', -⟩ := open_spec hinv
    rw [hopen] at hopen'; cases hopen'
  | openCrash hc =>
    obtain ⟨ops, s, hopen', -, hcrash⟩ := open_spec hinv
    rw [hopen'] at hc
    exact ⟨h, rfl, hcrash _ _ hc⟩
  | called call =>
    obtain ⟨cs, h1, h2, hlive⟩ := called_spec hinv call hok
    refine ⟨h ++ cs, ?_, by rw [happ]; exact hlive⟩
    rcases hres : (call.run _ _).result with e | ⟨⟩
    · rw [h2 (by rw [hres]; simp)]
      simp [Extends]
    · rw [h1 hres]
      rfl
  | callCrash call hc =>
    obtain ⟨n, hrec⟩ := callCrash_spec hinv call hok hc
    exact ⟨h ++ call.commands.take n, ⟨n, rfl⟩, by rw [happ]; exact hrec⟩
  | crash hc =>
    rename_i d d' s
    refine ⟨h, rfl, ?_⟩
    rcases s with _ | s
    · exact Recoverable.crashed hinv hc
    · exact (Live.recoverable hinv).crashed hc

theorem run_inv {steps : List (System × Label)} {sys : System} (hrun : Run steps sys)
    (hok : ∀ p ∈ steps, Allowed p.1 p.2) :
    ∃ h, Explained steps sys h ∧ Inv sys (applyCommands [] h) := by
  induction hrun with
  | start => exact ⟨[], .start inv_initial.shows, inv_initial⟩
  | step hrun hstep ih =>
    obtain ⟨h, hex, hinv⟩ := ih fun p hp => hok p (by simp [hp])
    obtain ⟨h', hext, hinv'⟩ := step_inv hinv hstep (hok (_, _) List.mem_cons_self)
    exact ⟨h', .step hex hext hinv'.shows, hinv'⟩

section Lost

/-- The tree with the only entry `a`, `1`. -/
def oneEntry : BTreeIndex := ⟨[⟨["a"], ["1"], []⟩], 0, 1⟩

theorem oneEntry_represents : oneEntry.Represents [("a", "1")] := by
  obtain ⟨t, ht, hrep⟩ := BTreeIndex.insert_spec "a" "1" BTreeIndex.new_represents
  have : BTreeIndex.new.insert "a" "1" = .ok oneEntry := by rfl
  rw [this] at ht
  cases ht
  exact hrep

theorem oneEntry_saveTemp : oneEntry.saveTemp.2 = .ok () := by
  obtain ⟨mp, hmp⟩ := BTreeIndex.metaPage_ok oneEntry
  obtain ⟨b, hb, hholds⟩ := SlottedPage.new_holds .leaf
  obtain ⟨c, hc, hlen⟩ : ∃ c, BTreeIndex.itemCell ⟨["a"], ["1"], []⟩ 0 = .ok c ∧ c.length = 10 :=
    ⟨_, rfl, rfl⟩
  have hpage : ∃ pg, BTreeIndex.nodePage ⟨["a"], ["1"], []⟩ = .ok pg := by
    obtain ⟨-, b', hi, hholds'⟩ | ⟨hfull, -⟩ := SlottedPage.insert_holds (c := c) hholds
    · obtain ⟨pg, hpg, -⟩ := SlottedPage.fromBytes_finish hholds'
      refine ⟨pg, ?_⟩
      simp [BTreeIndex.nodePage, BTreeIndex.startPage, Node.leaf, hb, hc, hi, hpg]
    · simp [SlottedPage.used, hlen, PAGE_SIZE, SlottedPage.HEADER_SIZE] at hfull
  obtain ⟨pg, hpg⟩ := hpage
  refine BTreeIndex.saveTemp_of_pages [pg] hmp ?_ (by simp [PAGE_SIZE])
  simp [oneEntry, hpg]

/-- The directory with durable files of the given contents. -/
def files (wal pages bak tmp : Option Bytes) : Disk FileName
  | .wal => wal.map File.settled
  | .pages => pages.map File.settled
  | .bak => bak.map File.settled
  | .tmp => tmp.map File.settled

theorem files_crashed (w p b t : Option Bytes) : (files w p b t).Crashed (files w p b t) := by
  have hcr : ∀ o : Option Bytes, CrashedFile (o.map File.settled) (o.map File.settled) := by
    rintro (_ | c)
    · rfl
    · exact ⟨c, rfl, rfl⟩
  rintro (_ | _ | _ | _)
  · exact hcr w
  · exact hcr p
  · exact hcr t
  · exact hcr b

theorem files_saveTemp (w p b t : Option Bytes) : ∃ file,
    (BTreeIndex.loadExact file).2 = .ok oneEntry ∧
    (files w p b t).runOps oneEntry.saveTemp.1 = files w p b (some file) := by
  obtain ⟨file, htmp, hload⟩ := BTreeIndex.runOps_saveTemp_tmp (d := files w p b t) oneEntry_represents
    oneEntry_saveTemp
  have hother : ∀ n, n ≠ .tmp → (files w p b t).runOps oneEntry.saveTemp.1 n = files w p b t n :=
    fun n hn => BTreeIndex.runOps_saveTemp_done hn
  refine ⟨file, hload, funext fun n => ?_⟩
  cases n with
  | wal => exact hother .wal (by decide)
  | pages => exact hother .pages (by decide)
  | bak => exact hother .bak (by decide)
  | tmp => exact htmp

/-- A checkpoint of the one entry on a directory without a snapshot. -/
theorem checkpoint_first (s : Store) (hs : s.data = oneEntry) (w : Bytes) : ∃ file,
    (BTreeIndex.loadExact file).2 = .ok oneEntry ∧ (s.checkpoint (files (some w) none none none)).result = .ok () ∧
    (s.checkpoint (files (some w) none none none)).store = s ∧
    (files (some w) none none none).runOps (s.checkpoint (files (some w) none none none)).ops =
      files (some []) (some file) none none := by
  have hsave : s.data.saveTemp.2 = .ok () := hs ▸ oneEntry_saveTemp
  obtain ⟨file, hload, hT⟩ := files_saveTemp (some w) none none none
  refine ⟨file, hload, by rw [checkpoint_ops_ok hsave], by rw [checkpoint_ops_ok hsave], ?_⟩
  rw [checkpoint_ops_ok hsave, hs, hT]
  simp only [List.append_assoc, Disk.runOps_append, hT]
  funext n
  cases n <;> simp [files, publishOps, truncateOps, BTreeIndex.publishSnapshot, DiskOp.run, Disk.set,
    FileOp.run, File.settled, setLen]

/-- A crash of a checkpoint that has moved the only snapshot to the backup. -/
theorem checkpoint_moved (s : Store) (hs : s.data = oneEntry) (file : Bytes) : ∃ file',
    (files (some []) (some file) none none).runOps
      ((s.checkpoint (files (some []) (some file) none none)).ops.take
        (oneEntry.saveTemp.1.length + 2)) = files (some []) none (some file) (some file') := by
  obtain ⟨file', -, hT⟩ := files_saveTemp (some []) (some file) none none
  refine ⟨file', ?_⟩
  have := runOps_checkpoint_take (s := s) (d := files (some []) (some file) none none)
    (hs ▸ oneEntry_saveTemp) 2
  rw [hs] at this
  rw [this, hT]
  funext n
  cases n <;> simp [files, publishOps, truncateOps, BTreeIndex.publishSnapshot, DiskOp.run, Disk.set]

/-- A crash of a checkpoint that has removed the backup, which was the only snapshot. -/
theorem checkpoint_lost (s : Store) (hs : s.data = oneEntry) (file tmp : Bytes) : ∃ file',
    (files (some []) none (some file) (some tmp)).runOps
      ((s.checkpoint (files (some []) none (some file) (some tmp))).ops.take
        (oneEntry.saveTemp.1.length + 1)) = files (some []) none none (some file') := by
  obtain ⟨file', -, hT⟩ := files_saveTemp (some []) none (some file) (some tmp)
  refine ⟨file', ?_⟩
  have := runOps_checkpoint_take (s := s) (d := files (some []) none (some file) (some tmp))
    (hs ▸ oneEntry_saveTemp) 1
  rw [hs] at this
  rw [this, hT]
  funext n
  cases n <;> simp [files, publishOps, truncateOps, BTreeIndex.publishSnapshot, DiskOp.run, Disk.set]

/-- Opening the store when the backup is the only snapshot. -/
theorem open_backup {file : Bytes} (hload : (BTreeIndex.loadExact file).2 = .ok oneEntry) (tmp : Bytes) :
    ∃ ops s, openStore (files (some []) none (some file) (some tmp)) = (ops, .ok s) ∧
      s.data = oneEntry ∧ (files (some []) none (some file) (some tmp)).runOps ops =
        files (some []) none (some file) (some tmp) := by
  obtain ⟨d, hd⟩ : ∃ d, d = files (some []) none (some file) (some tmp) := ⟨_, rfl⟩
  have hbak : d .bak = some (File.settled file) := by rw [hd]; rfl
  have hopen : openStore d = ((BTreeIndex.loadFile d .bak).1 ++ [.create .wal],
      .ok ⟨oneEntry, ⟨0, false, 0⟩⟩) := by
    have hl : BTreeIndex.load d = ((BTreeIndex.loadFile d .bak).1, .ok oneEntry) := by
      have hp : d .pages = none := by rw [hd]; rfl
      simp [BTreeIndex.load, hp, hbak, BTreeIndex.loadFile, File.settled, hload]
    have hw : Wal.replayPath ((d .wal).map File.bytes) = ⟨[], false, 0⟩ := by rw [hd]; rfl
    have hr : ((.ok oneEntry : Res BTreeIndex).bind fun data => replayRecords data []) =
        .ok oneEntry := rfl
    simp [openStore, hl, hw, hr]
  have hfix := loadFile_fixed hbak
  rw [← hd]
  refine ⟨_, _, hopen, rfl, ?_⟩
  rw [Disk.runOps_append, Disk.runOps_fixed hfix, Disk.runOps_cons, Disk.runOps_nil, DiskOp.run]
  exact Disk.set_same (by rw [hd]; rfl)

/-- The run that opens a store and writes the entry. -/
theorem set_run : ∃ steps w, Run steps ⟨files (some w) none none none,
    some ⟨oneEntry, ⟨0, false, 0⟩⟩⟩ ∧
    steps.map Prod.snd = [.called (.set "a" "1") (.ok ()), .opened] := by
  have h1 : Run [(initial, .opened)] ⟨files (some []) none none none, some ⟨.new, ⟨0, false, 0⟩⟩⟩ := by
    have hstep : Step initial .opened
        ⟨initial.disk.runOps [.create .wal], some ⟨.new, ⟨0, false, 0⟩⟩⟩ := .opened rfl
    have hd : initial.disk.runOps [.create .wal] = files (some []) none none none := by
      funext n
      cases n <;> rfl
    rw [hd] at hstep
    exact .step .start hstep
  obtain ⟨w, hw⟩ : ∃ w, w = Wal.frame (Command.set "a" "1").encode := ⟨_, rfl⟩
  have hstep := Step.called (d := files (some []) none none none) (s := ⟨.new, ⟨0, false, 0⟩⟩)
    (.set "a" "1")
  have hrun : (Call.set "a" "1").run ⟨.new, ⟨0, false, 0⟩⟩ (files (some []) none none none) =
      ⟨[.file .wal (.append w), .file .wal .sync], .ok (), ⟨oneEntry, ⟨0, false, 0⟩⟩⟩ := by
    rw [hw]; rfl
  rw [hrun] at hstep
  have hd : (files (some []) none none none).runOps [.file .wal (.append w), .file .wal .sync] =
      files (some w) none none none := by
    funext n
    cases n <;> simp [DiskOp.run, Disk.set, files, FileOp.run, File.settled]
  simp only [hd] at hstep
  exact ⟨_, w, .step h1 hstep, rfl⟩

/-- A run that is not allowed: the entry is written and checkpointed; a second checkpoint crashes when it has moved
    the snapshot to the backup; the store is opened from the backup; and a third checkpoint crashes
    when it has removed it. -/
theorem lost_run : ∃ steps tmp, Run steps ⟨files (some []) none none (some tmp), none⟩ ∧
    steps.map Prod.snd = [.callCrash .checkpoint (oneEntry.saveTemp.1.length + 1), .opened,
      .callCrash .checkpoint (oneEntry.saveTemp.1.length + 2), .called .checkpoint (.ok ()),
      .called (.set "a" "1") (.ok ()), .opened] := by
  obtain ⟨steps₂, w, h2, hl2⟩ := set_run
  -- the three checkpoints
  obtain ⟨file, hload, hres, hst, hd⟩ := checkpoint_first ⟨oneEntry, ⟨0, false, 0⟩⟩ rfl w
  have h3 := Step.called (d := files (some w) none none none) (s := ⟨oneEntry, ⟨0, false, 0⟩⟩)
    .checkpoint
  simp only [Call.run, hres, hst, hd] at h3
  obtain ⟨tmp, hd⟩ := checkpoint_moved ⟨oneEntry, ⟨0, false, 0⟩⟩ rfl file
  have h4 : Step ⟨files (some []) (some file) none none, some ⟨oneEntry, ⟨0, false, 0⟩⟩⟩
      (.callCrash .checkpoint (oneEntry.saveTemp.1.length + 2))
      ⟨files (some []) none (some file) (some tmp), none⟩ :=
    .callCrash .checkpoint (by rw [Call.run, hd]; exact files_crashed _ _ _ _)
  obtain ⟨ops, s, hopen, hs, hd⟩ := open_backup hload tmp
  have h5 := Step.opened hopen
  rw [hd] at h5
  obtain ⟨tmp', hd⟩ := checkpoint_lost s hs file tmp
  have h6 : Step ⟨files (some []) none (some file) (some tmp), some s⟩
      (.callCrash .checkpoint (oneEntry.saveTemp.1.length + 1))
      ⟨files (some []) none none (some tmp'), none⟩ :=
    .callCrash .checkpoint (by rw [Call.run, hd]; exact files_crashed _ _ _ _)
  exact ⟨_, tmp', .step (.step (.step (.step h2 h3) h4) h5) h6, by simp [hl2]⟩

end Lost

end Store

end NutDb
