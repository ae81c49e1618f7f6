/-
  Runs of the transactional store.

  Every step keeps the invariant, so every run has a history: reads are
  isolated from other transactions (`get_isolated`), and crashes lose no commit
  and keep none in part (`recovery_complete`).
-/
import NutDb.Mvcc.Invariant

namespace NutDb

open Lib

namespace Mvcc

/-! ## What calls do -/

/-- The record of a write. -/
def writeRecord (txn : U64) (key : String) : Option String → TxnRecord
  | some value => .set txn key value
  | none => .delete txn key

/-- The call is not acknowledged as a commit. -/
def NoCommit : Call → TxnRes Answer → Prop
  | .commit, .ok _ => False
  | _, _ => True

/-- The ways in which a call of an unfinished transaction can go. -/
inductive Effect (t : Transaction) (inner : Inner) : Call → Outcome → Prop
  /-- A read, or a write that is refused. -/
  | none {call result} : call ≠ .commit → (call.write = none ∨ ∃ e, result = .error e) →
      Effect t inner call ⟨[], result, inner, some t⟩
  | wrote {call key value} : call.write = some (key, value) → (writeRecord t.id key value).Loggable →
      Effect t inner call ⟨[.append (Wal.frame (writeRecord t.id key value).payload)], .ok .unit, inner,
        some { t with writes := insertEntry key value t.writes }⟩
  | aborted {call result} : call.write = none → NoCommit call result → Effect t inner call
      ⟨[.append (Wal.frame (TxnRecord.abort t.id).payload), .sync], result,
        { inner with active := eraseKey t.id inner.active }, none⟩
  | dropped {call result} : call.write = none → NoCommit call result → Effect t inner call
      ⟨[], result, { inner with active := eraseKey t.id inner.active }, none⟩
  | committed {ts : U64} : ts.val = inner.commitTs.val + 1 → Effect t inner .commit
      ⟨[.append (Wal.frame (TxnRecord.commit t.id ts).payload), .sync], .ok (.timestamp ts),
        { inner with
          versions := applyVersions inner.versions t.writes ts
          commitTs := ts
          active := eraseKey t.id inner.active }, none⟩

section Effect
variable {t : Transaction} {inner : Inner}

theorem finishAborted_eq (t : Transaction) (inner : Inner) : t.finishAborted inner =
    .ok ([.append (Wal.frame (TxnRecord.abort t.id).payload), .sync],
      { inner with active := eraseKey t.id inner.active }, { t with finished := true }) := by
  simp only [Transaction.finishAborted, appendRecord_of_loggable (TxnRecord.loggable_abort t.id)]
  rfl

theorem ensureOpen_ok (ht : t.finished = false) : t.ensureOpen = .ok () := by
  simp [Transaction.ensureOpen, ht]

theorem write_effect {call : Call} (key : String) (value : Option String) (ht : t.finished = false)
    (hcall : call.write = some (key, value))
    (hrun : call.run t inner =
      ⟨(t.write (writeRecord t.id key value) key value).1,
        (t.write (writeRecord t.id key value) key value).2.1.map fun _ => .unit, inner,
        some (t.write (writeRecord t.id key value) key value).2.2⟩) :
    Effect t inner call (call.run t inner) := by
  have hne : call ≠ .commit := fun h => by rw [h] at hcall; cases hcall
  rw [hrun]
  rcases appendRecord_cases (writeRecord t.id key value) with ⟨hl, ha⟩ | ⟨e, ha⟩
  · simp only [Transaction.write, ensureOpen_ok ht, ha]
    exact .wrote hcall hl
  · simp only [Transaction.write, ensureOpen_ok ht, ha]
    exact .none hne (Or.inr ⟨e, rfl⟩)

/-- **Every call** goes one of these ways. -/
theorem call_effect (inner : Inner) (ht : t.finished = false) (call : Call) :
    Effect t inner call (call.run t inner) := by
  cases call with
  | get key => exact .none (by simp) (Or.inl rfl)
  | scanPrefix pre => exact .none (by simp) (Or.inl rfl)
  | set key value => exact write_effect key (some value) ht rfl rfl
  | delete key => exact write_effect key none ht rfl rfl
  | commit =>
    rcases hf : t.writes.find? fun w => decide (latestChange inner.versions w.1 > t.snapshot) with _ | w
    · rcases hts : inner.commitTs.checkedAdd 1 with _ | ts
      · simp only [Call.run, Transaction.commit, ensureOpen_ok ht, hf, hts, Transaction.drop, ht]
        exact .dropped rfl trivial
      · simp only [Call.run, Transaction.commit, ensureOpen_ok ht, hf, hts,
          appendRecord_of_loggable (TxnRecord.loggable_commit t.id ts)]
        exact .committed (U64.checkedAdd_eq_some.1 hts)
    · simp only [Call.run, Transaction.commit, ensureOpen_ok ht, hf, finishAborted_eq]
      exact .aborted rfl trivial
  | abort =>
    simp only [Call.run, Transaction.abort, ensureOpen_ok ht, finishAborted_eq]
    exact .aborted rfl trivial
  | drop =>
    simp only [Call.run, Transaction.drop, ht]
    exact .dropped rfl trivial

theorem begin_cases (inner : Inner) :
    (∃ e, inner.begin = ([], .error e, inner)) ∨
    ∃ next : U64, next.val = inner.nextTxn.val + 1 ∧ inner.begin =
      ([.append (Wal.frame (TxnRecord.begin inner.nextTxn inner.commitTs).payload), .sync],
        .ok { id := inner.nextTxn, snapshot := inner.commitTs },
        { inner with nextTxn := next, active := insertEntry inner.nextTxn inner.commitTs inner.active }) := by
  rcases hn : inner.nextTxn.checkedAdd 1 with _ | next
  · exact Or.inl ⟨_, by simp only [Inner.begin, hn]; rfl⟩
  · refine Or.inr ⟨next, U64.checkedAdd_eq_some.1 hn, ?_⟩
    simp only [Inner.begin, hn, appendRecord_of_loggable (TxnRecord.loggable_begin _ _)]
    rfl

end Effect

/-! ## Runs -/

/-- The invariant of the system. -/
def Inv (sys : System) (commits : List Writes) (ids : List U64) : Prop :=
  match sys.store with
  | some inner => ∃ r, Logging sys.disk r commits ids ∧ Memory inner sys.txns r commits
  | none => Stored sys.disk commits ids

theorem Inv.shows {sys : System} {commits : List Writes} {ids : List U64} (h : Inv sys commits ids) :
    Shows sys commits := by
  rcases sys with ⟨d, _ | inner, txns⟩
  · obtain ⟨ops, inner, r, hopen, hinner, -, hlog, -⟩ := Stored.open h
    have hi := hlog.inv
    have hts : inner.commitTs.val = commits.length := by rw [hinner]; exact hi.commitTs
    refine ⟨ops, inner, hopen, hts, fun key s hs => ?_⟩
    rw [hinner]
    exact hi.reads.visibleValue (Nat.zero_le _) (by have := Fin.le_def.1 hs; omega) key
  · obtain ⟨r, hlog, hm⟩ := h
    have hts : inner.commitTs.val = commits.length := by rw [hm.commitTs]; exact hlog.inv.commitTs
    obtain ⟨low, hreads, hlow, -⟩ := hm.reads
    refine ⟨hts, fun key => ?_⟩
    rw [Inner.getAt, hreads.visibleValue (by omega) (by omega), hts, List.take_length]

theorem inv_initial : Inv initial [] [] :=
  show Stored initial.disk [] [] from ⟨[], {}, ⟨by simp, fun _ h => (nomatch h), [],
    Wal.not_startsWithFrame_nil, rfl⟩, .nil, by simp⟩

section Step
variable {sys sys' : System} {l : Label} {commits : List Writes} {ids : List U64}

theorem replayRecord_writeRecord {r : Replay} {txn : U64} (hb : (r.begun.lookup txn).isSome)
    (key : String) (value : Option String) :
    replayRecord r (writeRecord txn key value) = .ok (r.buffer txn key value) := by
  cases value <;> simp [writeRecord, replayRecord, ensureBegun, hb]

theorem isWrite_writeRecord (txn : U64) (key : String) (value : Option String) :
    (writeRecord txn key value).IsWrite := by
  cases value <;> trivial

theorem replayRecord_commit {r : Replay} {txn ts : U64} (hb : (r.begun.lookup txn).isSome)
    (hts : ts.val = r.commitTs.val + 1) : replayRecord r (.commit txn ts) = .ok { r with
      versions := applyVersions r.versions ((r.pending.lookup txn).getD []) ts
      pending := eraseKey txn r.pending
      begun := eraseKey txn r.begun
      commitTs := ts } := by
  have hlt : ¬ ts ≤ r.commitTs := fun hle => by have := Fin.le_def.1 hle; omega
  simp [replayRecord, ensureBegun, hb, hlt]

theorem extends_of_noCommit {h : ℕ} {call : Call} {result : TxnRes Answer}
    (hn : NoCommit call result) : Extends sys (.called h call result) commits commits := by
  cases call with
  | commit =>
    rcases result with e | a
    · rfl
    · cases hn
  | _ => rfl

/-- **A call** keeps the invariant. -/
theorem called_inv {d : Disk Unit} {inner : Inner} {txns : ℕ → Option Transaction} {h : ℕ}
    {t : Transaction} (hinv : Inv ⟨d, some inner, txns⟩ commits ids) (ht : txns h = some t)
    {call : Call} {out : Outcome} (heff : Effect t inner call out) :
    ∃ commits', Extends ⟨d, some inner, txns⟩ (.called h call out.result) commits commits' ∧
      Inv ⟨d.runOps (onLog out.ops), some out.inner, Function.update txns h out.txn⟩ commits' ids ∧
      ∀ k d', (d.runOps (onLog (out.ops.take k))).Crashed d' →
        ∃ commits', Extends ⟨d, some inner, txns⟩ (.callCrash h call k) commits commits' ∧
          Stored d' commits' ids := by
  obtain ⟨r, hlog, hm⟩ := hinv
  simp only at hlog hm
  have ho := hm.opened h t ht
  have hi := hlog.inv
  have hsame : ∀ {k}, Extends ⟨d, some inner, txns⟩ (.callCrash h call k) commits commits := by
    intro k
    cases call <;> first | rfl | exact Or.inl rfl
  have hnc : ∀ {result}, NoCommit call result →
      Extends ⟨d, some inner, txns⟩ (.called h call result) commits commits :=
    fun hn => extends_of_noCommit hn
  have hnothing : ∀ k d', (d.runOps (onLog (([] : List FileOp).take k))).Crashed d' →
      ∃ commits', Extends ⟨d, some inner, txns⟩ (.callCrash h call k) commits commits' ∧
        Stored d' commits' ids := by
    intro k d' hc
    rw [List.take_nil] at hc
    exact ⟨commits, hsame, hlog.crashed hc⟩
  cases heff with
  | none hne _ =>
    refine ⟨commits, hnc ?_, ⟨r, hlog, ?_⟩, hnothing⟩
    · cases call <;> trivial
    · rw [Function.update_eq_self_iff.2 ht.symm]
      exact hm
  | @wrote call key value hw hl =>
    have hr := replayRecord_writeRecord ho.begun key value
    have hiw := isWrite_writeRecord t.id key value
    refine ⟨commits, hnc (by cases call <;> trivial),
      ⟨_, hlog.write hiw hl hr, hm.write ht key value⟩, fun k d' hc => ⟨commits, hsame, ?_⟩⟩
    have hp : Proper r commits (writeRecord t.id key value) := by cases value <;> trivial
    rcases hlog.crash_record hl hp hr (Or.inl rfl) hc with hs | hs
    · exact hs
    · rwa [grow_of_isWrite hiw] at hs
  | aborted hw hn =>
    refine ⟨commits, hnc hn, ⟨_, hlog.sync (TxnRecord.loggable_abort t.id) trivial rfl,
      hm.finish ht (Or.inr rfl)⟩, fun k d' hc => ⟨commits, hsame, ?_⟩⟩
    rcases hlog.crash_record (TxnRecord.loggable_abort t.id) trivial rfl (Or.inr rfl) hc with hs | hs
    · exact hs
    · exact hs
  | dropped hw hn =>
    exact ⟨commits, hnc hn, ⟨r, hlog, hm.finish ht (Or.inl rfl)⟩, hnothing⟩
  | @committed ts hts =>
    have hts' : ts.val = r.commitTs.val + 1 := by rw [hts, hm.commitTs]
    have hlen : ts.val = commits.length + 1 := by rw [hts', hi.commitTs]
    have hr := replayRecord_commit ho.begun hts'
    have hg : grow r commits (.commit t.id ts) = commits ++ [t.writes] := by
      simp [grow, ho.pending]
    have hl := TxnRecord.loggable_commit t.id ts
    have hlog' := hlog.sync hl hlen hr
    rw [hg] at hlog'
    refine ⟨commits ++ [t.writes], ⟨t, ht, rfl, by simp [hlen]⟩, ⟨_, hlog', hm.commit hi ht hts⟩,
      fun k d' hc => ?_⟩
    rcases hlog.crash_record hl hlen hr (Or.inr rfl) hc with hs | hs
    · exact ⟨commits, Or.inl rfl, hs⟩
    · rw [hg] at hs
      exact ⟨commits ++ [t.writes], Or.inr ⟨t, ht, rfl⟩, hs⟩

theorem replayRecord_begin (r : Replay) (txn snapshot : U64) :
    replayRecord r (.begin txn snapshot) = .ok { r with
      maxTxn := max r.maxTxn txn
      begun := insertEntry txn snapshot r.begun
      pending := insertEntry txn ((r.pending.lookup txn).getD []) r.pending } := rfl

/-- **One step** keeps the invariant, with the history extended as it has to be, and returns only
    new ids. -/
theorem step_inv {steps : List (System × Label)} (hinv : Inv sys commits (issued steps))
    (hstep : Step sys l sys') :
    (∀ id, l.begunId = some id → ∀ id' ∈ issued steps, id' < id) ∧
    ∃ commits', Extends sys l commits commits' ∧ Inv sys' commits' (issued ((sys, l) :: steps)) := by
  cases hstep with
  | opened hopen =>
    obtain ⟨ops, inner, r, hopen', hinner, hnext, hlog, -⟩ := Stored.open hinv
    rw [hopen] at hopen'
    cases hopen'
    refine ⟨by simp [Label.begunId], commits, rfl, r, hlog, ?_⟩
    rw [hinner]
    exact ⟨⟨0, hlog.inv.reads, Nat.zero_le _, by simp⟩, rfl, hnext, fun h t ht => (nomatch ht),
      fun h h' t t' ht => (nomatch ht)⟩
  | openFailed hopen =>
    obtain ⟨ops, inner, r, hopen', -⟩ := Stored.open hinv
    rw [hopen] at hopen'
    cases hopen'
  | openCrash hc =>
    obtain ⟨ops, inner, r, hopen', -, -, -, hcrash⟩ := Stored.open hinv
    rw [hopen'] at hc
    exact ⟨by simp [Label.begunId], commits, rfl, hcrash _ _ hc⟩
  | @began d inner txns ops t inner' h hbegin hfree =>
    obtain ⟨r, hlog, hm⟩ := hinv
    obtain ⟨e, he⟩ | ⟨next, hnext, he⟩ := begin_cases inner
    · rw [he] at hbegin
      cases hbegin
    · rw [he] at hbegin
      cases hbegin
      have hn := hm.nextTxn
      have hlt : ∀ id ∈ issued steps, id < inner.nextTxn := fun id hid =>
        lt_of_le_of_lt (hlog.issued id hid) (Fin.lt_def.2 (by omega))
      have hnext' : inner.nextTxn.val + 1 < 2 ^ 64 := hnext ▸ next.isLt
      have hlog' := hlog.sync (TxnRecord.loggable_begin inner.nextTxn inner.commitTs) ⟨by omega, hnext'⟩ rfl
      refine ⟨fun id hid => by cases hid; exact hlt, commits, rfl, _, ⟨hlog'.replayed, ?_⟩,
        hm.begin hlog.inv hnext⟩
      intro id hid
      rcases List.mem_cons.1 hid with rfl | hid
      · exact le_max_right _ _
      · exact hlog'.issued id hid
  | @beginFailed d inner txns ops e inner' hbegin =>
    obtain ⟨e', he⟩ | ⟨next, hnext, he⟩ := begin_cases inner
    · rw [he] at hbegin
      cases hbegin
      exact ⟨by simp [Label.begunId], commits, rfl, hinv⟩
    · rw [he] at hbegin
      cases hbegin
  | @beginCrash d d' inner txns k hc =>
    obtain ⟨r, hlog, hm⟩ := hinv
    refine ⟨by simp [Label.begunId], commits, rfl, ?_⟩
    obtain ⟨e', he⟩ | ⟨next, hnext, he⟩ := begin_cases inner
    · rw [he, List.take_nil] at hc
      exact hlog.crashed hc
    · rw [he] at hc
      have hnext' : inner.nextTxn.val + 1 < 2 ^ 64 := hnext ▸ next.isLt
      rcases hlog.crash_record (TxnRecord.loggable_begin inner.nextTxn inner.commitTs)
        ⟨by rw [hm.nextTxn]; omega, hnext'⟩ rfl (Or.inr rfl) hc with hs | hs
      · exact hs
      · exact hs
  | @called d inner txns h t call ht =>
    have hopen : t.finished = false := by
      obtain ⟨r, -, hm⟩ := hinv
      exact (hm.opened h t ht).unfinished
    obtain ⟨commits', hext, hinv', -⟩ := called_inv hinv ht (call_effect inner hopen call)
    exact ⟨by simp [Label.begunId], commits', hext, hinv'⟩
  | @callCrash d d' inner txns h t k call ht hc =>
    have hopen : t.finished = false := by
      obtain ⟨r, -, hm⟩ := hinv
      exact (hm.opened h t ht).unfinished
    obtain ⟨-, -, -, hcrash⟩ := called_inv hinv ht (call_effect inner hopen call)
    obtain ⟨commits', hext, hs⟩ := hcrash k d' hc
    exact ⟨by simp [Label.begunId], commits', hext, hs⟩
  | gc =>
    obtain ⟨r, hlog, hm⟩ := hinv
    exact ⟨by simp [Label.begunId], commits, rfl, r, hlog, hm.gc hlog.inv⟩
  | @crash d d' inner txns hc =>
    refine ⟨by simp [Label.begunId], commits, rfl, ?_⟩
    rcases inner with _ | inner
    · obtain ⟨R, r, hl, hr, hids⟩ := hinv
      exact ⟨R, r, hl.crashed (hc ()), hr, hids⟩
    · obtain ⟨r, hlog, -⟩ := hinv
      exact hlog.crashed hc

/-- Where the transaction behind a handle comes from: it begins in this step, or it was there. -/
theorem step_txn {h : ℕ} {t' : Transaction} {ids : List U64} (hinv : Inv sys commits ids)
    (hstep : Step sys l sys') (ht' : sys'.txns h = some t') :
    (l = .began h t'.id ∧ sys.txns h = none ∧ t'.writes = []) ∨
    ∃ t, sys.txns h = some t ∧ t'.id = t.id ∧ t'.snapshot = t.snapshot ∧
      (∀ id, l ≠ .began h id) ∧ ((∃ call key value a, l = .called h call (.ok a) ∧
        call.write = some (key, value) ∧ t'.writes = insertEntry key value t.writes) ∨
      (t'.writes = t.writes ∧ ∀ call a, l = .called h call (.ok a) → call.write = none)) := by
  cases hstep with
  | opened => cases ht'
  | openFailed => cases ht'
  | openCrash => cases ht'
  | @began d inner txns ops t inner' h₀ hbegin hfree =>
    simp only [Function.update_apply] at ht'
    split_ifs at ht' with hh
    · cases ht'
      refine Or.inl ⟨by rw [hh], hh ▸ hfree, ?_⟩
      obtain ⟨e, he⟩ | ⟨next, -, he⟩ := begin_cases inner
      · rw [he] at hbegin; cases hbegin
      · rw [he] at hbegin; cases hbegin; rfl
    · refine Or.inr ⟨t', ht', rfl, rfl, fun id heq => ?_, Or.inr ⟨rfl, fun _ _ heq => (nomatch heq)⟩⟩
      cases heq
      exact hh rfl
  | beginFailed => exact Or.inr ⟨t', ht', rfl, rfl, by simp, Or.inr ⟨rfl, by simp⟩⟩
  | beginCrash => cases ht'
  | @called d inner txns h₀ t call ht =>
    simp only [Function.update_apply] at ht'
    split_ifs at ht' with hh
    · subst hh
      have hopen : t.finished = false := by
        obtain ⟨r, -, hm⟩ := hinv
        exact (hm.opened h t ht).unfinished
      refine Or.inr ⟨t, ht, ?_⟩
      have heff := call_effect inner hopen call
      generalize hout : call.run t inner = out at heff ht'
      cases heff with
      | none hne hw =>
        cases ht'
        refine ⟨rfl, rfl, by simp, Or.inr ⟨rfl, fun call' a heq => ?_⟩⟩
        cases heq
        rcases hw with hw | ⟨e, he⟩
        · exact hw
        · cases he
      | wrote hw hl =>
        cases ht'
        exact ⟨rfl, rfl, by simp, Or.inl ⟨call, _, _, .unit, rfl, hw, rfl⟩⟩
      | aborted => cases ht'
      | dropped => cases ht'
      | committed => cases ht'
    · refine Or.inr ⟨t', ht', rfl, rfl, by simp, Or.inr ⟨rfl, fun call' a heq => ?_⟩⟩
      simp only [Label.called.injEq] at heq
      exact absurd heq.1.symm hh
  | callCrash => cases ht'
  | gc => exact Or.inr ⟨t', ht', rfl, rfl, by simp, Or.inr ⟨rfl, by simp⟩⟩
  | crash => cases ht'

end Step

/-- What is known of a state after a run with a history. -/
structure Tracked (steps : List (System × Label)) (sys : System) (commits : List Writes) : Prop where
  explained : Explained steps sys commits
  inv : Inv sys commits (issued steps)
  ids : (issued steps).Pairwise fun id id' => id' < id
  begun : ∀ h t, sys.txns h = some t → t.id ∈ issued steps
  writes : ∀ h t, sys.txns h = some t → ∀ key, t.writes.lookup key = ownWrite h key steps

section Tracked
variable {steps more : List (System × Label)} {sys sys' : System} {l : Label} {commits : List Writes}
  {h : ℕ} {t : Transaction}

theorem tracked_initial : Tracked [] initial [] :=
  ⟨.start inv_initial.shows, inv_initial, List.Pairwise.nil, fun _ _ ht => (nomatch ht),
    fun _ _ ht => (nomatch ht)⟩

theorem issued_cons (sys : System) (l : Label) (steps : List (System × Label)) :
    issued ((sys, l) :: steps) = l.begunId.toList ++ issued steps := by
  simp only [issued, List.filterMap_cons]
  cases l.begunId <;> rfl

theorem Extends.grows {commits' : List Writes} (he : Extends sys l commits commits') :
    commits <+: commits' := by
  unfold Extends at he
  split at he
  · obtain ⟨t, -, rfl, -⟩ := he
    exact List.prefix_append _ _
  · obtain rfl | ⟨t, -, rfl⟩ := he
    · exact List.prefix_refl _
    · exact List.prefix_append _ _
  · rw [he]

/-- The latest write of a transaction after a step in which it does not begin. -/
theorem ownWrite_cons (key : String) (hb : ∀ id, l ≠ .began h id)
    (hw : ∀ call a, l = .called h call (.ok a) → call.write = none) :
    ownWrite h key ((sys, l) :: steps) = ownWrite h key steps := by
  cases l with
  | began h' id =>
    rw [ownWrite, if_neg fun heq => hb id (by rw [heq])]
  | called h' call result =>
    rcases result with e | a
    · rfl
    · rw [ownWrite]
      by_cases hh : h' = h
      · rw [hw call a (by rw [hh])]
      · rcases call.write with _ | ⟨k, v⟩
        · rfl
        · simp [hh]
  | _ => rfl

/-- **One step** of a run. -/
theorem Tracked.step (hT : Tracked steps sys commits) (hstep : Step sys l sys') :
    ∃ commits', Extends sys l commits commits' ∧ Tracked ((sys, l) :: steps) sys' commits' := by
  obtain ⟨hnew, commits', hext, hinv⟩ := step_inv hT.inv hstep
  refine ⟨commits', hext, .step hT.explained hext hinv.shows, hinv, ?_, fun h t ht => ?_,
    fun h t ht key => ?_⟩
  · rw [issued_cons]
    rcases hb : l.begunId with _ | id
    · exact hT.ids
    · exact List.pairwise_cons.2 ⟨hnew id hb, hT.ids⟩
  · rw [issued_cons]
    obtain ⟨rfl, -⟩ | ⟨t₀, ht₀, hid, -⟩ := step_txn hT.inv hstep ht
    · exact List.mem_append_left _ (by simp [Label.begunId])
    · rw [hid]
      exact List.mem_append_right _ (hT.begun h t₀ ht₀)
  · obtain ⟨rfl, -, hw⟩ | ⟨t₀, ht₀, -, -, hb, ⟨call, k, v, a, rfl, hw, hins⟩ | ⟨hw, hno⟩⟩ :=
      step_txn hT.inv hstep ht
    · simp [hw, ownWrite]
    · rw [hins, lookup_insertEntry, hT.writes h t₀ ht₀, ownWrite, hw]
      by_cases hk : key = k
      · simp [hk]
      · simp [hk, Ne.symm hk]
    · rw [hw, hT.writes h t₀ ht₀, ownWrite_cons key hb hno]

theorem Tracked.path (hT : Tracked steps sys commits) (hp : Trace Step sys more sys') :
    ∃ commits', commits <+: commits' ∧ Tracked (more ++ steps) sys' commits' := by
  induction hp with
  | refl => exact ⟨commits, List.prefix_refl _, hT⟩
  | step _ hs ih =>
    obtain ⟨c₁, hp₁, hT₁⟩ := ih
    obtain ⟨c₂, hext, hT₂⟩ := hT₁.step hs
    exact ⟨c₂, hp₁.trans hext.grows, hT₂⟩

/-- **Reading**: what a transaction reads is its own write, or the state at its snapshot. -/
theorem Tracked.get {inner : Inner} (hT : Tracked steps sys commits) (hs : sys.store = some inner)
    (ht : sys.txns h = some t) : t.snapshot.val ≤ commits.length ∧ ∀ key, t.get inner key =
      .ok ((ownWrite h key steps).getD (valueAfter (commits.take t.snapshot.val) key)) := by
  have hinv := hT.inv
  rcases sys with ⟨d, store, txns⟩
  simp only at hs ht
  subst hs
  obtain ⟨r, -, hm⟩ := hinv
  obtain ⟨low, hreads, h1, h2⟩ := hm.snapshot ht
  refine ⟨h2, fun key => ?_⟩
  rw [← hT.writes h t ht key, Transaction.get, ensureOpen_ok (hm.opened h t ht).unfinished]
  rcases t.writes.lookup key with _ | v
  · exact congrArg Except.ok (hreads.visibleValue h1 h2 key)
  · rfl

/-- The transaction behind a handle that still has its id began before, and with the same
    snapshot. -/
theorem Tracked.same_txn {t' : Transaction} (hT : Tracked steps sys commits)
    (hp : Trace Step sys more sys') (ht : sys.txns h = some t) (ht' : sys'.txns h = some t')
    (hid : t'.id = t.id) : t'.snapshot = t.snapshot ∧ ∀ p ∈ more, ∀ id, p.2 ≠ .began h id := by
  induction hp generalizing t' with
  | refl =>
    rw [ht] at ht'
    cases ht'
    exact ⟨rfl, by simp⟩
  | @step s₁ s₂ l more hp hs ih =>
    obtain ⟨c₁, -, hT₁⟩ := hT.path hp
    obtain ⟨rfl, -⟩ | ⟨t₁, ht₁, hid₁, hsnap, hb, -⟩ := step_txn hT₁.inv hs ht'
    · -- ids are not used twice
      have hmem : t.id ∈ issued (more ++ steps) := by
        rw [issued, List.filterMap_append]
        exact List.mem_append_right _ (hT.begun h t ht)
      exact absurd hid ((step_inv hT₁.inv hs).1 _ rfl _ hmem).ne'
    · obtain ⟨h1, h2⟩ := ih ht₁ (hid₁.symm.trans hid)
      refine ⟨hsnap.trans h1, fun p hp id => ?_⟩
      rcases List.mem_cons.1 hp with rfl | hp
      · exact hb id
      · exact h2 p hp id

/-- Without writes of the key the latest write stays. -/
theorem ownWrite_append {key : String} (hb : ∀ p ∈ more, ∀ id, p.2 ≠ .began h id)
    (hw : ∀ p ∈ more, ∀ call v, (∃ result, p.2 = .called h call result) → call.write ≠ some (key, v)) :
    ownWrite h key (more ++ steps) = ownWrite h key steps := by
  induction more with
  | nil => rfl
  | cons p more ih =>
    have ih := ih (fun p hp => hb p (by simp [hp])) fun p hp => hw p (by simp [hp])
    obtain ⟨s, l⟩ := p
    have hb := hb (s, l) (by simp)
    have hw := hw (s, l) (by simp)
    rw [List.cons_append, ← ih]
    cases l with
    | began h' id => rw [ownWrite, if_neg fun heq => hb id (by rw [heq])]
    | called h' call result =>
      rcases result with e | a
      · rfl
      · rw [ownWrite]
        rcases hcw : call.write with _ | ⟨k, v⟩
        · rfl
        · have : ¬ (h' = h ∧ k = key) := by
            rintro ⟨rfl, rfl⟩
            exact hw call v ⟨_, rfl⟩ hcw
          simp [this]
    | _ => rfl

end Tracked

/-- **Reads are isolated**: in every state of every run, an unfinished transaction reads its own
    latest write of a key, or else the value in the state after the commits up to its snapshot; and
    it goes on reading the same, whatever happens, until it writes the key itself. -/
theorem get_isolated {steps : List (System × Label)} {sys : System}
    (hrun : Trace Step initial steps sys) : ∃ commits, Explained steps sys commits ∧
    ∀ inner h t, sys.store = some inner → sys.txns h = some t → t.snapshot.val ≤ commits.length ∧
      ∀ key, t.get inner key =
          .ok ((ownWrite h key steps).getD (valueAfter (commits.take t.snapshot.val) key)) ∧
        ∀ more sys' inner' t', Trace Step sys more sys' → sys'.store = some inner' →
          sys'.txns h = some t' → t'.id = t.id →
          (∀ p ∈ more, ∀ call v, (∃ result, p.2 = .called h call result) →
            call.write ≠ some (key, v)) →
          t'.get inner' key = t.get inner key := by
  obtain ⟨commits, -, hT⟩ := tracked_initial.path hrun
  rw [List.append_nil] at hT
  refine ⟨commits, hT.explained, fun inner h t hs ht => ?_⟩
  obtain ⟨hlen, hget⟩ := hT.get hs ht
  refine ⟨hlen, fun key => ⟨hget key, fun more sys' inner' t' hp hs' ht' hid hno => ?_⟩⟩
  obtain ⟨commits', hpre, hT'⟩ := hT.path hp
  obtain ⟨hsnap, hb⟩ := hT.same_txn hp ht ht' hid
  obtain ⟨-, hget'⟩ := hT'.get hs' ht'
  have htake : commits'.take t.snapshot.val = commits.take t.snapshot.val := by
    obtain ⟨rest, rfl⟩ := hpre
    exact List.take_append_of_le_length hlen
  rw [hget', hget, ownWrite_append hb hno, hsnap, htake]

/-- **Recovery is atomic and complete**: there is one history of commits that grows with the
    acknowledged commits and perhaps with the one that a crash interrupts, every opening recovers
    it, and `begin` never returns an id twice, also not after a crash. -/
theorem recovery_complete {steps : List (System × Label)} {sys : System}
    (hrun : Trace Step initial steps sys) : (∃ commits, Explained steps sys commits) ∧
    (issued steps).Pairwise fun id id' => id' < id := by
  obtain ⟨commits, -, hT⟩ := tracked_initial.path hrun
  rw [List.append_nil] at hT
  exact ⟨⟨commits, hT.explained⟩, hT.ids⟩

/-! ## Runs with several transactions -/

theorem step_called {d : Disk Unit} {inner inner' : Inner} {txns : ℕ → Option Transaction} {h : ℕ}
    {t : Transaction} {txn : Option Transaction} {call : Call} {ops : List FileOp} {result : TxnRes Answer}
    (ht : txns h = some t) (hrun : call.run t inner = ⟨ops, result, inner', txn⟩) :
    Step ⟨d, some inner, txns⟩ (.called h call result)
      ⟨d.runOps (onLog ops), some inner', Function.update txns h txn⟩ := by
  have := @Step.called d inner _ _ _ call ht
  rwa [hrun] at this

theorem run_set {t : Transaction} (inner : Inner) {key value : String} (ht : t.finished = false)
    (hl : (TxnRecord.set t.id key value).Loggable) : (Call.set key value).run t inner =
      ⟨[.append (Wal.frame (TxnRecord.set t.id key value).payload)], .ok .unit, inner,
        some { t with writes := insertEntry key (some value) t.writes }⟩ := by
  simp only [Call.run, Transaction.set, Transaction.write, ensureOpen_ok ht, appendRecord_of_loggable hl]
  rfl

/-- Three transactions have committed; one that began then has written a key itself, and another one
    has written a key anew. -/
theorem overlap_run : ∃ steps sys inner t, Trace Step initial steps sys ∧ sys.store = some inner ∧
    sys.txns 0 = some t ∧ t = { id := 4, snapshot := 3, writes := [("c", some "9")] } ∧
    sys.txns 1 = some { id := 5, snapshot := 3, writes := [("a", some "3")] } ∧
    inner = ⟨[("a", [⟨"1", 1, some 2⟩, ⟨"2", 2, none⟩]), ("b", [⟨"7", 3, none⟩])], [(4, 3), (5, 3)], 6, 3⟩ ∧
    ownWrite 0 "a" steps = none ∧ ownWrite 0 "c" steps = some (some "9") := by
  have hopen : Step initial .opened ⟨initial.disk.runOps [.create ()], some ⟨[], [], 1, 0⟩, noTxns⟩ :=
    .opened rfl
  have hrun := (Trace.refl initial).step hopen
  have hrun := hrun.step (.began (h := 0) rfl rfl)
  have hrun := hrun.step (step_called (h := 0) rfl
    (run_set _ rfl (show (TxnRecord.set 1 "a" "1").Loggable from ⟨_, rfl, by decide⟩)))
  have hrun := hrun.step (step_called (h := 0) rfl
    (show Call.commit.run _ _ = ⟨_, .ok (.timestamp 1), _, _⟩ from rfl))
  have hrun := hrun.step (.began (h := 0) rfl rfl)
  have hrun := hrun.step (step_called (h := 0) rfl
    (run_set _ rfl (show (TxnRecord.set 2 "a" "2").Loggable from ⟨_, rfl, by decide⟩)))
  have hrun := hrun.step (step_called (h := 0) rfl
    (show Call.commit.run _ _ = ⟨_, .ok (.timestamp 2), _, _⟩ from rfl))
  have hrun := hrun.step (.began (h := 0) rfl rfl)
  have hrun := hrun.step (step_called (h := 0) rfl
    (run_set _ rfl (show (TxnRecord.set 3 "b" "7").Loggable from ⟨_, rfl, by decide⟩)))
  have hrun := hrun.step (step_called (h := 0) rfl
    (show Call.commit.run _ _ = ⟨_, .ok (.timestamp 3), _, _⟩ from rfl))
  have hrun := hrun.step (.began (h := 0) rfl rfl)
  have hrun := hrun.step (.began (h := 1) rfl rfl)
  have hrun := hrun.step (step_called (h := 0) rfl
    (run_set _ rfl (show (TxnRecord.set 4 "c" "9").Loggable from ⟨_, rfl, by decide⟩)))
  have hrun := hrun.step (step_called (h := 1) rfl
    (run_set _ rfl (show (TxnRecord.set 5 "a" "3").Loggable from ⟨_, rfl, by decide⟩)))
  exact ⟨_, _, _, _, hrun, rfl, rfl, rfl, rfl, rfl, rfl, rfl⟩

/-- In that run the reader goes on reading the value at its snapshot, though the other transaction
    commits a newer one and a collection removes an older one; and it reads its own write. -/
theorem get_isolated_overlap : ∃ steps sys inner t commits more sys' inner',
    Trace Step initial steps sys ∧ Explained steps sys commits ∧ sys.store = some inner ∧
    sys.txns 0 = some t ∧ Trace Step sys more sys' ∧ sys'.store = some inner' ∧ sys'.txns 0 = some t ∧
    more.map Prod.snd = [.gc ⟨3, 1⟩, .called 1 .commit (.ok (.timestamp 4))] ∧
    inner'.getAt "a" inner'.commitTs = some "3" ∧ valueAfter (commits.take 3) "a" = some "2" ∧
    t.get inner' "a" = .ok (some "2") ∧ t.get inner "c" = .ok (some "9") := by
  obtain ⟨steps, ⟨d, store, txns⟩, inner, t, hrun, hs, ht, rfl, hwriter, rfl, howna, hownc⟩ := overlap_run
  cases hs
  obtain ⟨commits, hex, hget⟩ := get_isolated hrun
  obtain ⟨-, hreads⟩ := hget _ 0 _ rfl ht
  have hcommit : Call.commit.run { id := 5, snapshot := 3, writes := [("a", some "3")] }
      ⟨[("a", [⟨"1", 1, some 2⟩, ⟨"2", 2, none⟩]), ("b", [⟨"7", 3, none⟩])], [(4, 3), (5, 3)], 6, 3⟩ =
      ⟨_, .ok (.timestamp 4), _, none⟩ := rfl
  have hmore := ((Trace.refl _).step (step_called (d := d) hwriter hcommit)).step .gc
  have ht' := (Function.update_of_ne (show (0 : ℕ) ≠ 1 by decide) none txns).trans ht
  refine ⟨steps, _, _, _, commits, _, _, _, hrun, hex, rfl, ht, hmore, rfl, ht', rfl, rfl, ?_, ?_, ?_⟩
  · have hvalue := (hreads "a").1
    rw [howna] at hvalue
    exact (Except.ok.inj hvalue).symm
  · refine (hreads "a").2 _ _ _ _ hmore rfl ht' rfl ?_
    rintro p hp call v ⟨result, hcall⟩
    fin_cases hp <;> cases hcall
  · exact (hreads "c").1.trans (by rw [hownc]; rfl)

/-! ## A run with a torn crash -/

/-- The store is running after the given steps, with the given records in its log. -/
def Running (labels : List Label) (records : List TxnRecord) (inner : Inner) (txns : ℕ → Option Transaction) :
    Prop :=
  ∃ steps d, Trace Step initial steps ⟨d, some inner, txns⟩ ∧ steps.map Prod.snd = labels ∧
    (d ()).map File.bytes = some (Wal.frames (records.map TxnRecord.payload)) ∧ ∀ x ∈ records, x.Loggable

section Running
variable {labels : List Label} {records : List TxnRecord} {inner : Inner} {txns : ℕ → Option Transaction} {h : ℕ}
  {t : Transaction}

/-- A step that logs one record. -/
theorem Running.logged {l : Label} {record : TxnRecord} {ops : List FileOp} {inner' : Inner}
    {txns' : ℕ → Option Transaction} (hrun : Running labels records inner txns) (hl : record.Loggable)
    (hops : ops = [.append (Wal.frame record.payload)] ∨ ops = [.append (Wal.frame record.payload), .sync])
    (hstep : ∀ d, Step ⟨d, some inner, txns⟩ l ⟨d.runOps (onLog ops), some inner', txns'⟩) :
    Running (l :: labels) (records ++ [record]) inner' txns' := by
  obtain ⟨steps, d, htrace, rfl, hbytes, hrecords⟩ := hrun
  refine ⟨_, _, htrace.step (hstep d), rfl, ?_, List.forall_mem_append.2 ⟨hrecords, by simpa using hl⟩⟩
  obtain ⟨f, hf, hb⟩ := Option.map_eq_some_iff.1 hbytes
  have hframes : Wal.frames ((records ++ [record]).map TxnRecord.payload) =
      f.bytes ++ Wal.frame record.payload := by simp [hb]
  rw [runOps_onLog, hf, hframes]
  rcases hops with rfl | rfl <;> rfl

theorem Running.began {next : U64} (hrun : Running labels records inner txns)
    (hnext : inner.nextTxn.checkedAdd 1 = some next) (hh : txns h = none) :
    Running (.began h inner.nextTxn :: labels) (records ++ [.begin inner.nextTxn inner.commitTs])
      { inner with nextTxn := next, active := insertEntry inner.nextTxn inner.commitTs inner.active }
      (Function.update txns h (some { id := inner.nextTxn, snapshot := inner.commitTs })) := by
  refine hrun.logged (TxnRecord.loggable_begin _ _) (Or.inr rfl) fun d => ?_
  refine @Step.began d inner txns _ { id := inner.nextTxn, snapshot := inner.commitTs } _ h ?_ hh
  simp only [Inner.begin, hnext, appendRecord_of_loggable (TxnRecord.loggable_begin _ _)]
  rfl

theorem Running.set (hrun : Running labels records inner txns) (key value : String) (ht : txns h = some t)
    (hopen : t.finished = false) (hl : (TxnRecord.set t.id key value).Loggable) :
    Running (.called h (.set key value) (.ok .unit) :: labels) (records ++ [.set t.id key value]) inner
      (Function.update txns h (some { t with writes := insertEntry key (some value) t.writes })) :=
  hrun.logged hl (Or.inl rfl) fun _ => step_called ht (run_set inner hopen hl)

theorem Running.commit {ts : U64} (hrun : Running labels records inner txns) (ht : txns h = some t)
    (hopen : t.finished = false) (hts : inner.commitTs.checkedAdd 1 = some ts)
    (hfirst : t.writes.find? (fun w => decide (latestChange inner.versions w.1 > t.snapshot)) = none) :
    Running (.called h .commit (.ok (.timestamp ts)) :: labels) (records ++ [.commit t.id ts])
      { inner with
        versions := applyVersions inner.versions t.writes ts
        commitTs := ts
        active := eraseKey t.id inner.active } (Function.update txns h none) := by
  refine hrun.logged (TxnRecord.loggable_commit _ _) (Or.inr rfl) fun _ => step_called ht ?_
  simp only [Call.run, Transaction.commit, ensureOpen_ok hopen, hfirst, hts,
    appendRecord_of_loggable (TxnRecord.loggable_commit _ _)]
  rfl

theorem replayPayloads_payload (h : ∀ x ∈ records, x.Loggable) :
    replayPayloads (records.map TxnRecord.payload) = records.foldlM replayRecord {} := by
  rw [replayPayloads, List.foldlM_map]
  generalize ({} : Replay) = r₀
  induction records generalizing r₀ with
  | nil => rfl
  | cons x records ih =>
    have ih := ih fun y hy => h y (List.mem_cons_of_mem x hy)
    simp only [List.foldlM_cons, TxnRecord.decode_encode (h x List.mem_cons_self).payload.1, Res.ok_bind, ih]

/-- **A torn crash**: the commit record of a transaction is cut, and the store is opened again. -/
theorem Running.torn {k : ℕ} {r : Replay} {ts next : U64} (hrun : Running labels records inner txns)
    (ht : txns h = some t) (hopen : t.finished = false) (hts : inner.commitTs.checkedAdd 1 = some ts)
    (hfirst : t.writes.find? (fun w => decide (latestChange inner.versions w.1 > t.snapshot)) = none)
    (hk : k < 8 + (TxnRecord.commit t.id ts).payload.length)
    (hr : records.foldlM replayRecord {} = .ok r) (hnext : r.maxTxn.checkedAdd 1 = some next) :
    ∃ steps d, Trace Step initial steps ⟨d, some ⟨r.versions, [], next, r.commitTs⟩, noTxns⟩ ∧
      steps.map Prod.snd = .opened :: .callCrash h .commit 1 :: labels := by
  obtain ⟨steps, d, htrace, rfl, hbytes, hrecords⟩ := hrun
  obtain ⟨f, hf, hb⟩ := Option.map_eq_some_iff.1 hbytes
  have hl := (TxnRecord.loggable_commit t.id ts).payload.2
  set x := Wal.frame (TxnRecord.commit t.id ts).payload with hx
  have hpart := List.take_prefix k x
  have hne : x.take k ≠ x := fun heq => by
    have := congrArg List.length heq
    simp only [hx, List.length_take, Wal.length_frame, Wal.HEADER_LEN] at this
    omega
  have hops : (Call.commit.run t inner).ops = [.append x, .sync] := by
    simp only [Call.run, Transaction.commit, ensureOpen_ok hopen, hfirst, hts,
      appendRecord_of_loggable (TxnRecord.loggable_commit _ _)]
    rfl
  have hcrash : (d.runOps (onLog ((Call.commit.run t inner).ops.take 1))).Crashed
      fun _ => some (File.settled (f.bytes ++ x.take k)) := by
    rintro ⟨⟩
    rw [runOps_onLog, hf, hops]
    exact ⟨f.bytes ++ x.take k, Or.inr ⟨List.prefix_append _ _, (List.prefix_append_right_inj _).2 hpart⟩, rfl⟩
  have hleaves : Wal.Leaves (some (File.settled (f.bytes ++ x.take k))) (records.map TxnRecord.payload) := by
    refine ⟨fun p hp => ?_, fun g hg => by cases hg; rfl, _, Wal.not_startsWithFrame_of_prefix hl hpart hne,
      by rw [hb]; rfl⟩
    obtain ⟨record, hrecord, rfl⟩ := List.mem_map.1 hp
    exact (hrecords record hrecord).payload.2
  obtain ⟨ops, hstore⟩ : ∃ ops, openStore (fun _ => some (File.settled (f.bytes ++ x.take k))) =
      (ops, .ok ⟨r.versions, [], next, r.commitTs⟩) := by
    refine ⟨_, Prod.ext rfl ?_⟩
    simp only [openStore, hleaves.records, replayPayloads_payload hrecords, hr, hnext]
  exact ⟨_, _, (htrace.step (.callCrash .commit ht hcrash)).step (.opened hstore), rfl⟩

end Running

theorem Explained.shows {steps : List (System × Label)} {sys : System} {commits : List Writes}
    (h : Explained steps sys commits) : Shows sys commits := by
  cases h <;> assumption

/-- Two transactions overlap and commit; a crash cuts the commit record of a third one, and the store is
    opened again. -/
theorem torn_run : ∃ steps sys inner, Trace Step initial steps sys ∧ sys.store = some inner ∧
    inner.commitTs = 2 ∧ inner.getAt "a" 2 = some "1" ∧ inner.getAt "b" 2 = some "2" ∧
    steps.map Prod.snd = [.began 0 4, .opened, .callCrash 0 .commit 1, .called 0 (.set "a" "3") (.ok .unit),
      .began 0 3, .called 1 .commit (.ok (.timestamp 2)), .called 0 .commit (.ok (.timestamp 1)),
      .called 1 (.set "b" "2") (.ok .unit), .called 0 (.set "a" "1") (.ok .unit), .began 1 2, .began 0 1,
      .opened] := by
  have hopen : Running [.opened] [] ⟨[], [], 1, 0⟩ noTxns :=
    ⟨_, initial.disk.runOps [.create ()], (Trace.refl initial).step (.opened rfl), rfl, rfl, by simp⟩
  have hbegun := (hopen.began (h := 0) rfl rfl).began (h := 1) rfl rfl
  have hset := (hbegun.set (h := 0) "a" "1" rfl rfl ⟨_, rfl, by decide⟩).set (h := 1) "b" "2" rfl rfl
    ⟨_, rfl, by decide⟩
  have hdone := (hset.commit (h := 0) rfl rfl rfl rfl).commit (h := 1) rfl rfl rfl rfl
  have hthird := (hdone.began (h := 0) rfl rfl).set (h := 0) "a" "3" rfl rfl ⟨_, rfl, by decide⟩
  -- what the recovery finds: the third transaction is not committed
  obtain ⟨steps, d, hrun, hlabels⟩ := hthird.torn (h := 0) (k := 10) (r :=
    ⟨[("a", [⟨"1", 1, none⟩]), ("b", [⟨"2", 2, none⟩])], [(3, [("a", some "3")])], [(3, 2)], 3, 2⟩)
    rfl rfl rfl rfl (by decide) rfl rfl
  refine ⟨_, _, _, hrun.step (.began (h := 0) rfl rfl), rfl, rfl, rfl, rfl, ?_⟩
  rw [List.map_cons, hlabels]
  rfl

/-- The history of that run: the two commits, in their order, and not the one that is cut. -/
theorem recovery_complete_torn : ∃ steps sys commits, Trace Step initial steps sys ∧
    .callCrash 0 .commit 1 ∈ steps.map Prod.snd ∧ Explained steps sys commits ∧ commits.length = 2 ∧
    valueAfter commits "a" = some "1" ∧ valueAfter commits "b" = some "2" ∧ issued steps = [4, 3, 2, 1] ∧
    (issued steps).Pairwise fun id id' => id' < id := by
  obtain ⟨steps, ⟨d, store, txns⟩, inner, hrun, rfl, hts, ha, hb, hlabels⟩ := torn_run
  obtain ⟨⟨commits, hex⟩, hids⟩ := recovery_complete hrun
  obtain ⟨hlen, hget⟩ := hex.shows
  rw [hts] at hlen hget
  have hissued : issued steps = (steps.map Prod.snd).filterMap Label.begunId := by
    rw [issued, List.filterMap_map]
    rfl
  refine ⟨steps, _, commits, hrun, by simp [hlabels], hex, hlen.symm, (hget "a").symm.trans ha,
    (hget "b").symm.trans hb, ?_, hids⟩
  rw [hissued, hlabels]
  rfl

end Mvcc

end NutDb
