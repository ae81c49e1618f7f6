/-
  Serializability of transactions that write what they read.

  Snapshot isolation alone lets two transactions read what the other one writes.
  But a transaction conflicts if a key that it writes was changed after its
  snapshot, so a committed transaction may as well have read these keys at its
  commit.  The committed transactions, one after the other in the order of their
  timestamps, are an execution on a sequential map, but for reads of keys that the
  transaction does not write (`write_serializable`).
-/
import NutDb.Lib.Serial
import NutDb.Mvcc.Conflict

namespace NutDb

open Lib

namespace Mvcc

/-! ## Operations -/

/-- The operation of a call that has returned, of a single key. -/
def Call.op : Call → Answer → Option (MapOp String (Option String))
  | .get key, .value v => some (.read key v)
  | call, _ => call.write.map fun w => .write w.1 w.2

/-- The operations of the transaction behind a handle. -/
def operations (h : ℕ) : List (System × Label) → List (MapOp String (Option String))
  | [] => []
  | (_, .began h' _) :: steps => if h' = h then [] else operations h steps
  | (_, .called h' call (.ok a)) :: steps =>
    operations h steps ++ if h' = h then (call.op a).toList else []
  | _ :: steps => operations h steps

/-- How a step extends the committed transactions: by an acknowledged commit, and perhaps by
    one that a crash interrupts. -/
def OneCommit (steps : List (System × Label)) :
    Label → List (List (MapOp String (Option String))) → List (List (MapOp String (Option String))) → Prop
  | .called h .commit (.ok _), txns, txns' => txns' = txns ++ [operations h steps]
  | .callCrash h .commit _, txns, txns' => txns' = txns ∨ txns' = txns ++ [operations h steps]
  | _, txns, txns' => txns' = txns

/-- The committed transactions of a run, each with its operations, in the order of the commits. -/
inductive History : List (System × Label) → List (List (MapOp String (Option String))) → Prop
  | nil : History [] []
  | step {steps : List (System × Label)} {sys : System} {l : Label}
      {txns txns' : List (List (MapOp String (Option String)))} : History steps txns →
      OneCommit steps l txns txns' → History ((sys, l) :: steps) txns'

/-- What a transaction reads that begins now, or as soon as the store is opened. -/
def Contents (sys : System) (contents : String → Option String) : Prop :=
  match sys.store with
  | some inner => ∀ key, inner.getAt key inner.commitTs = contents key
  | none => ∃ ops inner, openStore sys.disk = (ops, .ok inner) ∧
      ∀ key, inner.getAt key inner.commitTs = contents key

section Operations
variable {h : ℕ} {steps : List (System × Label)} {sys : System} {l : Label}

theorem operations_cons (hb : ∀ id, l ≠ .began h id)
    (hcall : ∀ call a, l = .called h call (.ok a) → call.op a = none) :
    operations h ((sys, l) :: steps) = operations h steps := by
  cases l with
  | began h' id => rw [operations, if_neg fun heq => hb id (by rw [heq])]
  | called h' call result =>
    rcases result with e | a
    · rfl
    · rw [operations]
      split_ifs with hh
      · rw [hcall call a (by rw [hh]), Option.toList_none, List.append_nil]
      · rw [List.append_nil]
  | _ => rfl

theorem operations_called {call : Call} {a : Answer} {op : MapOp String (Option String)} (hop : call.op a = some op) :
    operations h ((sys, .called h call (.ok a)) :: steps) = operations h steps ++ [op] := by
  rw [operations, if_pos rfl, hop, Option.toList_some]

/-- A call of one key writes, or it is a `get`. -/
theorem Call.op_cases {call : Call} (hw : call.write = none) (a : Answer) :
    call.op a = none ∨ ∃ key v, call = .get key ∧ a = .value v := by
  cases call with
  | get key =>
    cases a with
    | value v => exact Or.inr ⟨key, v, rfl, rfl⟩
    | _ => exact Or.inl rfl
  | set key value => cases hw
  | delete key => cases hw
  | _ => exact Or.inl (by cases a <;> rfl)

theorem Call.op_write {call : Call} {a : Answer} {key : String} {v : Option String} (hw : call.write = some (key, v)) :
    call.op a = some (.write key v) := by
  cases call with
  | set key value =>
    cases hw
    rfl
  | delete key =>
    cases hw
    rfl
  | _ => cases hw

end Operations

/-! ## Keys that do not change -/

/-- A commit that does not change the key leaves its value. -/
theorem valueAfter_of_not_changes {commits : List Writes} {writes : Writes} {key : String}
    (h : changes commits writes key = false) : valueAfter (commits ++ [writes]) key = valueAfter commits key := by
  rw [valueAfter_concat]
  rw [changes] at h
  cases hlookup : writes.lookup key with
  | none => rfl
  | some w =>
    rw [hlookup] at h
    cases w with
    | none => exact (Option.not_isSome_iff_eq_none.1 (Bool.eq_false_iff.1 h)).symm
    | some x => cases h

/-- **Without a change after the snapshot** the key has the value it had there. -/
theorem valueAfter_unchanged {commits : List Writes} {key : String} {s : ℕ}
    (h : ∀ ts, s < ts → ¬ ChangedAt commits key ts) :
    valueAfter commits key = valueAfter (commits.take s) key := by
  induction commits using List.reverseRecOn with
  | nil => rw [List.take_nil]
  | append_singleton commits writes ih =>
    have hpre : commits <+: commits ++ [writes] := List.prefix_append _ _
    have hold : ∀ ts, s < ts → ¬ ChangedAt commits key ts := fun ts hts hch =>
      h ts hts ((changedAt_of_extends hpre hch.le_length).2 hch)
    rcases Nat.lt_or_ge commits.length s with hlt | hge
    · rw [List.take_of_length_le]
      rw [List.length_append, List.length_singleton]
      exact hlt
    · have hsame : changes commits writes key = false := by
        rw [← Bool.not_eq_true]
        exact fun hch => h _ (Nat.lt_succ_of_le hge) (changedAt_concat.2 hch)
      rw [valueAfter_of_not_changes hsame, ih hold, List.take_append_of_le_length hge]

/-! ## Runs -/

/-- What is known of a state after a run, with the committed transactions. -/
structure Serialized (steps : List (System × Label)) (sys : System) (commits : List Writes)
    (txns : List (List (MapOp String (Option String)))) : Prop where
  watched : Watched steps sys commits
  history : History steps txns
  serial : Serial (fun _ => none) (txns.flatMap guarded) (valueAfter commits)
  buffered : ∀ h t, sys.txns h = some t →
    Lib.Buffered (valueAfter (commits.take t.snapshot.val)) (operations h steps) fun key => t.writes.lookup key

section Run
variable {steps : List (System × Label)} {sys sys' : System} {l : Label} {commits commits' : List Writes}
  {txns : List (List (MapOp String (Option String)))} {h : ℕ} {t : Transaction} {inner : Inner}

theorem Inv.contents {ids : List U64} (hinv : Inv sys commits ids) : Contents sys (valueAfter commits) := by
  have hshows := hinv.shows
  rcases sys with ⟨d, _ | inner, txns⟩
  · obtain ⟨ops, inner, hopen, hts, hval⟩ := hshows
    refine ⟨ops, inner, hopen, fun key => ?_⟩
    rw [hval key inner.commitTs le_rfl, hts, List.take_length]
  · exact hshows.2

/-- **The transactions that are open** go on. -/
theorem Serialized.buffered_step (hS : Serialized steps sys commits txns) (hstep : Step sys l sys')
    (hpre : commits <+: commits') {t' : Transaction} (ht' : sys'.txns h = some t') :
    Lib.Buffered (valueAfter (commits'.take t'.snapshot.val)) (operations h ((sys, l) :: steps))
      fun key => t'.writes.lookup key := by
  have hT := hS.watched.tracked
  obtain ⟨rfl, -, hnil⟩ | ⟨t, ht, -, hsnap, hb, hcase⟩ := step_txn hT.inv hstep ht'
  · rw [operations, if_pos rfl, hnil]
    exact buffered_nil _
  · have hbuf := hS.buffered h t ht
    obtain ⟨inner, hs⟩ : ∃ inner, sys.store = some inner := by
      cases hstep with
      | opened | openFailed | openCrash => cases ht
      | began | beginFailed | beginCrash | called | callCrash | gc => exact ⟨_, rfl⟩
      | crash => cases ht'
    obtain ⟨hlen, hget⟩ := hT.get hs ht
    have htake : commits'.take t.snapshot.val = commits.take t.snapshot.val := by
      obtain ⟨rest, rfl⟩ := hpre
      exact List.take_append_of_le_length hlen
    rw [hsnap, htake]
    obtain ⟨call, key, v, a, rfl, hw, hins⟩ | ⟨hsame, hno⟩ := hcase
    · rw [operations_called (Call.op_write hw)]
      have hlookup : (fun k => t'.writes.lookup k) = Function.update (fun k => t.writes.lookup k) key (some v) := by
        funext k
        rw [hins, lookup_insertEntry, Function.update_apply]
      rw [hlookup]
      exact hbuf.write key v
    · rw [hsame]
      by_cases hread : ∃ key v, l = .called h (.get key) (.ok (.value v))
      · obtain ⟨key, v, rfl⟩ := hread
        have hv : v = (t.writes.lookup key).getD (valueAfter (commits.take t.snapshot.val) key) := by
          rw [hT.writes h t ht key]
          generalize hl : Label.called h (Call.get key) (Except.ok (Answer.value v)) = l at hstep
          cases hstep with
          | @called d inner₀ txns₀ h₀ t₀ call ht₀ =>
            obtain ⟨rfl, rfl, hres⟩ := Label.called.inj hl
            cases hs
            obtain rfl : t₀ = t := Option.some.inj (ht₀.symm.trans ht)
            simp only [Call.run, hget key] at hres
            cases hres
            rfl
          | _ => cases hl
        rw [operations_called rfl, hv]
        exact hbuf.read key
      · rw [operations_cons hb fun call a hl => ?_]
        · exact hbuf
        · rcases Call.op_cases (hno call a hl) a with hop | ⟨key, v, rfl, rfl⟩
          · exact hop
          · exact absurd ⟨key, v, hl⟩ hread

/-- **A commit** that does not conflict is an execution on the state before it. -/
theorem Serialized.commit (hS : Serialized steps sys commits txns) (hs : sys.store = some inner)
    (ht : sys.txns h = some t) (hok : ¬ ∃ key, (Call.commit.run t inner).result = .error (.conflict key)) :
    Serial (fun _ => none) ((txns ++ [operations h steps]).flatMap guarded) (valueAfter (commits ++ [t.writes])) := by
  have hvalue : (fun key => (t.writes.lookup key).getD (valueAfter commits key)) = valueAfter (commits ++ [t.writes]) := by
    funext key
    rw [valueAfter_concat]
  rw [List.flatMap_append, List.flatMap_singleton, ← hvalue]
  refine hS.serial.append ((hS.buffered h t ht).commit fun key hkey => ?_)
  refine valueAfter_unchanged fun ts hts hch => hok ?_
  exact (hS.watched.conflict_iff hs ht).2 ⟨key, ts, hkey, hts, hch⟩

/-- The history of a state that is not running has one length. -/
theorem length_unique {d : Disk Unit} {ids ids' : List U64} (h : Stored d commits ids) (h' : Stored d commits' ids') :
    commits'.length = commits.length := by
  have hinv : Inv ⟨d, none, noTxns⟩ commits ids := h
  have hinv' : Inv ⟨d, none, noTxns⟩ commits' ids' := h'
  obtain ⟨ops, inner, hopen, hts, -⟩ := hinv.shows
  obtain ⟨ops', inner', hopen', hts', -⟩ := hinv'.shows
  rw [hopen] at hopen'
  cases hopen'
  exact hts'.symm.trans hts

/-- **A crash** while a transaction commits that conflicts recovers no more commits. -/
theorem crash_conflict {d d' : Disk Unit} {txns₀ : ℕ → Option Transaction} {ids : List U64} {k : ℕ} {key : String}
    (hinv : Inv ⟨d, some inner, txns₀⟩ commits ids) (ht : txns₀ h = some t)
    (hconflict : (Call.commit.run t inner).result = .error (.conflict key))
    (hc : (d.runOps (onLog ((Call.commit.run t inner).ops.take k))).Crashed d') : Stored d' commits ids := by
  obtain ⟨r, hlog, hm⟩ := hinv
  have heff := call_effect inner (hm.opened h t ht).unfinished .commit
  generalize Call.commit.run t inner = out at heff hconflict hc
  cases heff with
  | none hne => exact absurd rfl hne
  | wrote hw => cases hw
  | aborted =>
    rcases hlog.crash_record (TxnRecord.loggable_abort t.id) trivial rfl (Or.inr rfl) hc with hs | hs
    · exact hs
    · exact hs
  | dropped =>
    rw [List.take_nil] at hc
    exact hlog.crashed hc
  | committed => cases hconflict

/-- A commit that succeeds returns its timestamp. -/
theorem answer_of_commit {a : Answer} (hfin : t.finished = false) (hres : (Call.commit.run t inner).result = .ok a) :
    ∃ ts, a = .timestamp ts := by
  have heff := call_effect inner hfin .commit
  generalize Call.commit.run t inner = out at heff hres
  cases heff with
  | none hne => exact absurd rfl hne
  | wrote hw => cases hw
  | aborted _ hn =>
    subst hres
    cases hn
  | dropped _ hn =>
    subst hres
    cases hn
  | committed =>
    cases hres
    exact ⟨_, rfl⟩

/-- **One step** of a run. -/
theorem Serialized.step (hS : Serialized steps sys commits txns) (hstep : Step sys l sys') :
    ∃ commits' txns', Serialized ((sys, l) :: steps) sys' commits' txns' := by
  obtain ⟨commits', hext, hW⟩ := hS.watched.step hstep
  have hbuf : ∀ h t', sys'.txns h = some t' →
      Lib.Buffered (valueAfter (commits'.take t'.snapshot.val)) (operations h ((sys, l) :: steps))
        fun key => t'.writes.lookup key :=
    fun h t' ht' => hS.buffered_step hstep hext.grows ht'
  have hkeep : commits' = commits → OneCommit steps l txns txns →
      ∃ commits' txns', Serialized ((sys, l) :: steps) sys' commits' txns' := by
    rintro rfl hcommits
    exact ⟨commits', txns, hW, .step hS.history hcommits, hS.serial, hbuf⟩
  cases hstep with
  | @called d inner txns₀ h t call ht =>
    cases call with
    | commit =>
      cases hres : (Call.commit.run t inner).result with
      | error e =>
        rw [hres] at hext hkeep
        exact hkeep hext rfl
      | ok a =>
        have hok : ¬ ∃ key, (Call.commit.run t inner).result = .error (.conflict key) := by
          rintro ⟨key, hkey⟩
          cases hres.symm.trans hkey
        rw [hres] at hW hbuf hext
        obtain ⟨hfin, -⟩ := hS.watched.snapshot_le rfl ht
        obtain ⟨ts, rfl⟩ := answer_of_commit hfin hres
        obtain ⟨t', ht', rfl, -⟩ := hext
        obtain rfl : t' = t := Option.some.inj (ht'.symm.trans ht)
        exact ⟨_, txns ++ [operations h steps], hW, .step hS.history rfl, hS.commit rfl ht hok, hbuf⟩
    | _ => exact hkeep hext rfl
  | @callCrash d d' inner txns₀ h t k call ht hc =>
    cases call with
    | commit =>
      by_cases hconflict : ∃ key, (Call.commit.run t inner).result = .error (.conflict key)
      · obtain ⟨key, hkey⟩ := hconflict
        have hlen := length_unique (crash_conflict hS.watched.tracked.inv ht hkey hc) hW.tracked.inv
        refine hkeep ?_ (Or.inl rfl)
        rcases hext with rfl | ⟨t', ht', rfl⟩
        · rfl
        · rw [List.length_append, List.length_singleton] at hlen
          omega
      · rcases hext with rfl | ⟨t', ht', rfl⟩
        · exact hkeep rfl (Or.inl rfl)
        · obtain rfl : t' = t := Option.some.inj (ht'.symm.trans ht)
          exact ⟨_, txns ++ [operations h steps], hW, .step hS.history (Or.inr rfl), hS.commit rfl ht hconflict, hbuf⟩
    | _ => exact hkeep hext rfl
  | _ => exact hkeep hext rfl

theorem serialized_initial : Serialized [] initial [] [] :=
  ⟨watched_initial, .nil, .nil _, fun _ _ ht => (nomatch ht)⟩

/-- **Transactions that write what they read are serializable**: in every run, with crashes, what the
    store holds and what the committed transactions have read of keys that they write is what a
    sequential map does that executes them one after the other in the order of their commits.  If they
    write every key that they read, then this is all that they have read. -/
theorem write_serializable (hrun : Trace Step initial steps sys) :
    ∃ txns contents, History steps txns ∧ Contents sys contents ∧
      Serial (fun _ => none) (txns.flatMap guarded) contents ∧
      ((∀ ops ∈ txns, Guarded ops) → Serial (fun _ => none) txns.flatten contents) := by
  obtain ⟨commits, txns, hS⟩ : ∃ commits txns, Serialized steps sys commits txns := by
    induction hrun with
    | refl => exact ⟨[], [], serialized_initial⟩
    | step _ hs ih =>
      obtain ⟨commits, txns, hS⟩ := ih
      exact hS.step hs
  refine ⟨txns, valueAfter commits, hS.history, hS.watched.tracked.inv.contents, hS.serial, fun hguarded => ?_⟩
  have hall : txns.flatMap guarded = txns.flatten := by
    rw [List.flatMap_def, List.map_congr_left fun ops hops => (hguarded ops hops).eq, List.map_id']
  rw [← hall]
  exact hS.serial

/-- In the run with a conflict the first transaction alone is executed. -/
theorem write_serializable_conflict : ∃ steps sys txns contents, Trace Step initial steps sys ∧
    History steps txns ∧ Contents sys contents ∧ contents "a" = some "1" ∧
    Serial (fun _ => none) (txns.flatMap guarded) contents := by
  obtain ⟨steps, sys, inner, t, hrun, hs, -, -, hinner⟩ := conflict_run
  obtain ⟨txns, contents, hhistory, hcontents, hserial, -⟩ := write_serializable hrun
  refine ⟨steps, sys, txns, contents, hrun, hhistory, hcontents, ?_, hserial⟩
  rw [Contents, hs] at hcontents
  rw [← hcontents "a", hinner]
  rfl

end Run

end Mvcc

end NutDb
