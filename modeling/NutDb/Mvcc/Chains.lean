/-
  The invariant of version chains.

  The versions of a key exist one after the other: a commit ends the current one
  and starts the next, and the collector only leaves versions out.  So the chain
  of every key is a timeline (`Lib.Timeline`), up to the last commit.

  `chains_ordered` says so of every state that is reached, from whatever log and
  also by crashes and by faults of the log, and that a search for the version at
  a snapshot can take any order.
-/
import NutDb.Lib.Timeline
import NutDb.Mvcc.Conflict
import NutDb.Mvcc.Scan

namespace NutDb

open Lib

namespace Mvcc

/-- What the code assumes of a chain: it is ordered by `created_at`, and a version ends before the next
    one is created, if not with it. -/
structure ChainInv (commitTs : U64) (chain : List Version) : Prop where
  increasing : chain.Pairwise fun v w => v.createdAt < w.createdAt
  closed : ∀ v ∈ chain.dropLast, ∃ d, v.deletedAt = some d
  proper : ∀ v ∈ chain, ∀ d, v.deletedAt = some d → v.createdAt < d
  next : chain.IsChain fun v w => ∀ d, v.deletedAt = some d → d ≤ w.createdAt
  old : ∀ v ∈ chain, v.createdAt ≤ commitTs ∧ ∀ d, v.deletedAt = some d → d ≤ commitTs

/-- The chain is a timeline of versions. -/
abbrev Version.Line (commitTs : U64) (chain : List Version) : Prop :=
  Timeline Version.createdAt Version.deletedAt commitTs chain

section Chain
variable {now ts s : U64} {chain order : List Version}

theorem Version.Line.chainInv (h : Version.Line now chain) : ChainInv now chain := by
  refine ⟨h.increasing, h.closed, h.proper, ?_, h.old⟩
  refine (h.apart.imp fun {v w} hends d hd => ?_).isChain
  obtain ⟨d', hd', hle⟩ := hends
  rw [hd] at hd'
  cases hd'
  exact hle

/-- A visible version exists at the snapshot. -/
theorem covers_of_visibleAt {v : Version} (h : v.visibleAt s = true) :
    Covers Version.createdAt Version.deletedAt s v := visibleAt_iff.1 h

/-- **A commit** ends the current version, and may start another one. -/
theorem Version.Line.applyWrite (h : Version.Line now chain) (hlt : now < ts) (value : Option String) :
    Version.Line ts (applyWrite ts value chain) := by
  obtain ⟨hline, hover⟩ := h.close hlt close_createdAt fun v => close_deletedAt v
  cases value with
  | none => exact hline
  | some value => exact hline.concat hover rfl rfl

/-- What is shown is what any search finds. -/
theorem Version.Line.chainValue (h : Version.Line now chain) (hperm : order.Perm chain) (s : U64) :
    chainValue chain s = (order.find? fun v => v.visibleAt s).map Version.value := by
  rw [Mvcc.chainValue, h.find (List.reverse_perm chain) fun v => covers_of_visibleAt,
    h.find hperm fun v => covers_of_visibleAt]

end Chain

/-! ## Version maps -/

/-- The chains of all keys are timelines. -/
structure Lines (now : U64) (versions : Versions) : Prop where
  sorted : SortedKeys versions
  line : ∀ key, Version.Line now (chainOf versions key)

section Map
variable {now ts : U64} {versions : Versions} {writes : Writes}

theorem lines_nil (now : U64) : Lines now [] := ⟨List.Pairwise.nil, fun _ => timeline_nil now⟩

/-- The chain of an entry. -/
theorem Lines.chain (h : Lines now versions) {e : String × List Version} (he : e ∈ versions) :
    Version.Line now e.2 := by
  have hline := h.line e.1
  rwa [chainOf, lookup_of_mem h.sorted he] at hline

/-- **A commit** extends the chains of the keys that it writes. -/
theorem Lines.applyVersions (h : Lines now versions) (hw : SortedKeys writes) (hlt : now < ts) :
    Lines ts (applyVersions versions writes ts) := by
  refine ⟨sortedKeys_applyVersions h.sorted, fun key => ?_⟩
  rw [chainOf_applyVersions hw]
  cases writes.lookup key with
  | none => exact (h.line key).mono hlt.le
  | some value => exact (h.line key).applyWrite hlt value

/-- **A collection** leaves versions out. -/
theorem Lines.retainVersions (h : Lines now versions) (watermark : U64) :
    Lines now (retainVersions watermark versions) := by
  refine ⟨List.Pairwise.filter _ (List.pairwise_map.2 h.sorted), fun key => ?_⟩
  rw [chainOf_retainVersions h.sorted]
  exact (h.line key).sublist List.filter_sublist

end Map

/-! ## Opening -/

/-- The chains of the recovery loop, and the writes that it holds back. -/
structure ReplayLines (r : Replay) : Prop where
  lines : Lines r.commitTs r.versions
  pending : ∀ txn writes, r.pending.lookup txn = some writes → SortedKeys writes

section Replay
variable {r r' : Replay} {record : TxnRecord}

theorem ReplayLines.sorted (h : ReplayLines r) (txn : U64) : SortedKeys ((r.pending.lookup txn).getD []) := by
  cases hp : r.pending.lookup txn with
  | none => exact List.Pairwise.nil
  | some writes => exact h.pending txn writes hp

/-- The writes of one transaction are replaced. -/
theorem sorted_insertEntry {pending : List (U64 × Writes)} {writes : Writes} (hw : SortedKeys writes) (txn : U64)
    (h : ∀ txn writes, pending.lookup txn = some writes → SortedKeys writes) :
    ∀ txn' writes', (insertEntry txn writes pending).lookup txn' = some writes' → SortedKeys writes' := by
  intro txn' writes' hl
  rw [lookup_insertEntry] at hl
  split_ifs at hl
  · cases hl
    exact hw
  · exact h txn' writes' hl

theorem sorted_eraseKey {pending : List (U64 × Writes)} (txn : U64)
    (h : ∀ txn writes, pending.lookup txn = some writes → SortedKeys writes) :
    ∀ txn' writes', (eraseKey txn pending).lookup txn' = some writes' → SortedKeys writes' := by
  intro txn' writes' hl
  rw [lookup_eraseKey] at hl
  split_ifs at hl
  exact h txn' writes' hl

/-- **One record**, whatever it is, keeps the chains. -/
theorem ReplayLines.step (h : ReplayLines r) (hr : replayRecord r record = .ok r') : ReplayLines r' := by
  obtain ⟨txn, snapshot, -, rfl⟩ | ⟨txn, key, value, -, -, rfl⟩ | ⟨txn, ts, -, -, hlt, rfl⟩ | ⟨txn, -, rfl⟩ :=
    replayRecord_cases hr
  · exact ⟨h.lines, sorted_insertEntry (h.sorted txn) txn h.pending⟩
  · exact ⟨h.lines, sorted_insertEntry (sortedKeys_insertEntry (h.sorted txn)) txn h.pending⟩
  · exact ⟨h.lines.applyVersions (h.sorted txn) hlt, sorted_eraseKey txn h.pending⟩
  · exact ⟨h.lines, sorted_eraseKey txn h.pending⟩

/-- The chains that recovery builds, from any log. -/
theorem replayPayloads_lines {payloads : List Bytes} (h : replayPayloads payloads = .ok r) : ReplayLines r := by
  refine Res.foldlM_inv (fun {r payload r'} hr hturn => ?_) ⟨lines_nil 0, fun _ _ hl => by cases hl⟩ h
  obtain ⟨record, -, hrecord⟩ := Res.bind_eq_ok.1 hturn
  exact hr.step hrecord

theorem openStore_lines {d : Disk Unit} {ops : List (DiskOp Unit)} {inner : Inner}
    (h : openStore d = (ops, .ok inner)) : Lines inner.commitTs inner.versions := by
  unfold openStore at h
  cases hr : replayPayloads (Wal.replayPath ((d ()).map File.bytes)).records with
  | error e =>
    simp only [hr] at h
    cases h
  | ok r =>
    simp only [hr] at h
    cases hnext : r.maxTxn.checkedAdd 1 with
    | none =>
      rw [hnext] at h
      cases h
    | some next =>
      rw [hnext] at h
      cases h
      exact (replayPayloads_lines hr).lines

end Replay

/-! ## Runs -/

/-- The running store has the invariant, and its transactions have sorted buffers. -/
structure Chained (sys : System) : Prop where
  buffered : Buffered sys.txns
  lines : ∀ inner, sys.store = some inner → Lines inner.commitTs inner.versions

section Runs
variable {sys sys' : System} {inner : Inner}

/-- A call keeps the chains. -/
theorem runOr_lines {t : Transaction} (h : Lines inner.commitTs inner.versions)
    (ht : t.finished = false ∧ SortedKeys t.writes) (f : LogFaults) (call : Call) :
    Lines (call.runOr f t inner).inner.commitTs (call.runOr f t inner).inner.versions := by
  have heffect := runOr_effect f inner ht.1 call
  generalize call.runOr f t inner = outcome at heffect
  cases heffect with
  | none hne => exact h
  | wrote hne hl => exact h
  | ended hne hno hops => exact h
  | lost hc hs hts => exact h
  | @committed ts hc hs hts =>
    have hlt : inner.commitTs < ts := Fin.lt_def.2 (by omega)
    exact h.applyVersions ht.2 hlt

/-- A transaction that begins does not change the versions. -/
theorem beginOr_versions {f : LogFaults} {inner' : Inner} {ops : List FileOp} {res : TxnRes Transaction}
    (h : inner.beginOr f = (ops, res, inner')) :
    inner'.commitTs = inner.commitTs ∧ inner'.versions = inner.versions := by
  rcases beginOr_cases f inner with ⟨e, he⟩ | ⟨next, -, ⟨e, ops', -, he⟩ | ⟨ops', -, he⟩⟩
  · rw [he] at h
    cases h
    exact ⟨rfl, rfl⟩
  · rw [he] at h
    cases h
    exact ⟨rfl, rfl⟩
  · rw [he] at h
    cases h
    exact ⟨rfl, rfl⟩

theorem beginOr_lines {f : LogFaults} {inner' : Inner} {ops : List FileOp} {res : TxnRes Transaction}
    (hl : Lines inner.commitTs inner.versions) (h : inner.beginOr f = (ops, res, inner')) :
    Lines inner'.commitTs inner'.versions := by
  obtain ⟨hts, hv⟩ := beginOr_versions h
  rw [hts, hv]
  exact hl

theorem FaultStep.lines {l : FaultLabel} (hstep : FaultStep sys l sys') (hc : Chained sys) (inner : Inner)
    (hs : sys'.store = some inner) : Lines inner.commitTs inner.versions := by
  cases hstep with
  | opened hopen =>
    cases hs
    exact openStore_lines hopen
  | closed => cases hs
  | began hbegin _ =>
    cases hs
    exact beginOr_lines (hc.lines _ rfl) hbegin
  | beginFailed hbegin =>
    cases hs
    exact beginOr_lines (hc.lines _ rfl) hbegin
  | called call f ht =>
    cases hs
    exact runOr_lines (hc.lines _ rfl) (hc.buffered _ _ ht) f call
  | gc =>
    cases hs
    exact (hc.lines _ rfl).retainVersions _

theorem Step.lines {l : Label} (hstep : Step sys l sys') (hc : Chained sys) (inner : Inner)
    (hs : sys'.store = some inner) : Lines inner.commitTs inner.versions := by
  cases hstep with
  | opened hopen =>
    cases hs
    exact openStore_lines hopen
  | openFailed _ => cases hs
  | openCrash _ => cases hs
  | began hbegin _ =>
    cases hs
    rw [← beginOr_sound] at hbegin
    exact beginOr_lines (hc.lines _ rfl) hbegin
  | beginFailed hbegin =>
    cases hs
    rw [← beginOr_sound] at hbegin
    exact beginOr_lines (hc.lines _ rfl) hbegin
  | beginCrash _ => cases hs
  | called call ht =>
    cases hs
    rw [← runOr_sound]
    exact runOr_lines (hc.lines _ rfl) (hc.buffered _ _ ht) {} call
  | callCrash _ _ _ => cases hs
  | gc =>
    cases hs
    exact (hc.lines _ rfl).retainVersions _
  | crash _ => cases hs

/-- **A step** keeps the invariant. -/
theorem Chained.step {l : Label ⊕ FaultLabel} (hc : Chained sys) (hstep : AnyStep sys l sys') : Chained sys' := by
  refine ⟨AnyStep.buffered hc.buffered hstep, ?_⟩
  rcases l with l | l
  · exact Step.lines hstep hc
  · exact FaultStep.lines hstep hc

/-- Nothing runs yet, whatever the log. -/
theorem chained_idle (d : Disk Unit) : Chained ⟨d, none, noTxns⟩ :=
  ⟨buffered_noTxns, fun _ hs => (nomatch hs)⟩

/-- **Chains are ordered**: in every state that is reached from any log, every chain has the invariant,
    at most one version of a key is visible at a snapshot, and a search in any order finds it. -/
theorem chains_ordered {d : Disk Unit} {steps : List (System × (Label ⊕ FaultLabel))}
    (hrun : Trace AnyStep ⟨d, none, noTxns⟩ steps sys) (hs : sys.store = some inner) :
    (∀ e ∈ inner.versions, ChainInv inner.commitTs e.2) ∧
    ∀ key (s : U64), ((chainOf inner.versions key).filter fun v => v.visibleAt s).length ≤ 1 ∧
      ∀ order : List Version, order.Perm (chainOf inner.versions key) →
        visibleValue inner.versions key s = (order.find? fun v => v.visibleAt s).map Version.value := by
  have hlines := (hrun.inv (I := Chained) Chained.step (chained_idle d)).lines inner hs
  refine ⟨fun e he => (hlines.chain he).chainInv, fun key s => ⟨?_, fun order hperm => ?_⟩⟩
  · exact length_covers_le_one (hlines.line key) fun v => covers_of_visibleAt
  · rw [visibleValue_eq]
    exact (hlines.line key).chainValue hperm s

/-- A transaction that is alone sets a key and commits. -/
theorem trace_set {d : Disk Unit} {inner₁ inner₂ : Inner} {ops₁ ops₂ ops₃ : List FileOp} {t t' : Transaction}
    {key value : String} {ts : U64} (hbegin : inner.begin = (ops₁, .ok t, inner₁))
    (hset : (Call.set key value).run t inner₁ = ⟨ops₂, .ok .unit, inner₁, some t'⟩)
    (hcommit : Call.commit.run t' inner₁ = ⟨ops₃, .ok (.timestamp ts), inner₂, none⟩) :
    ∃ steps d', Trace AnyStep ⟨d, some inner, noTxns⟩ steps ⟨d', some inner₂, noTxns⟩ := by
  have hbegun : Step ⟨d, some inner, noTxns⟩ _ _ := .began (h := 0) hbegin rfl
  have ht : Function.update noTxns 0 (some t) 0 = some t := Function.update_self ..
  have hwrote := step_called (d := d.runOps (onLog ops₁)) ht hset
  have ht' : Function.update (Function.update noTxns 0 (some t)) 0 (some t') 0 = some t' := Function.update_self ..
  have hended := step_called (d := (d.runOps (onLog ops₁)).runOps (onLog ops₂)) ht' hcommit
  have hrun := (((Trace.refl _).step hbegun.any).step hwrote.any).step hended.any
  have hnone : Function.update noTxns 0 none = noTxns := Function.update_eq_self 0 noTxns
  rw [Function.update_idem, Function.update_idem, hnone] at hrun
  exact ⟨_, _, hrun⟩

/-- A run in which a key is written twice. -/
theorem rewrite_run : ∃ steps sys inner, Trace AnyStep initial steps sys ∧ sys.store = some inner ∧
    inner = ⟨[("a", [⟨"1", 1, some 2⟩, ⟨"2", 2, none⟩])], [], 3, 2⟩ := by
  have hopen : Step initial .opened ⟨initial.disk.runOps [.create ()], some ⟨[], [], 1, 0⟩, noTxns⟩ :=
    .opened rfl
  obtain ⟨steps₁, d₁, hfirst⟩ := @trace_set ⟨[], [], 1, 0⟩ (initial.disk.runOps [.create ()])
    ⟨[], [(1, 0)], 2, 0⟩ ⟨[("a", [⟨"1", 1, none⟩])], [], 2, 1⟩ _ _ _ _ _ "a" "1" 1 rfl
    (run_set _ rfl ⟨_, rfl, by decide⟩) rfl
  obtain ⟨steps₂, d₂, hsecond⟩ := @trace_set ⟨[("a", [⟨"1", 1, none⟩])], [], 2, 1⟩ d₁
    ⟨[("a", [⟨"1", 1, none⟩])], [(2, 1)], 3, 1⟩ ⟨[("a", [⟨"1", 1, some 2⟩, ⟨"2", 2, none⟩])], [], 3, 2⟩
    _ _ _ _ _ "a" "2" 2 rfl (run_set _ rfl ⟨_, rfl, by decide⟩) rfl
  have hstart : Trace AnyStep initial _ _ := (Trace.refl initial).step hopen.any
  exact ⟨_, _, _, (hstart.trans hfirst).trans hsecond, rfl, rfl⟩

/-- In that run the first value is found behind the second, too. -/
theorem chains_ordered_rewrite : ∃ steps sys inner, Trace AnyStep initial steps sys ∧
    sys.store = some inner ∧ (chainOf inner.versions "a").length = 2 ∧
    visibleValue inner.versions "a" 1 =
      (([⟨"2", 2, none⟩, ⟨"1", 1, some 2⟩] : List Version).find? fun v => v.visibleAt 1).map Version.value := by
  obtain ⟨steps, sys, inner, hrun, hs, rfl⟩ := rewrite_run
  refine ⟨steps, sys, _, hrun, hs, rfl, ?_⟩
  exact ((chains_ordered hrun hs).2 "a" 1).2 _ (List.Perm.swap _ _ _)

end Runs

end Mvcc

end NutDb
