/-
  Write conflicts.

  The check of `commit` looks at the newest version that the collector has left
  of a key.  It is exact nevertheless: what the collector has removed was closed
  before every snapshot in use.  `Latest low last chain` says how the newest
  version dates the last change of its key, and `first_committer_wins` what
  follows for every run.
-/
import NutDb.Mvcc.Runs

namespace NutDb

open Lib

namespace Mvcc

/-! ## Changes -/

/-- Whether a commit of `writes` changes the key: it sets it, or deletes a value that it has. -/
def changes (before : List Writes) (writes : Writes) (key : String) : Bool :=
  match writes.lookup key with
  | some (some _) => true
  | some none => (valueAfter before key).isSome
  | none => false

/-- The transaction with the commit timestamp `ts` changed the key. -/
def ChangedAt (commits : List Writes) (key : String) (ts : ℕ) : Prop :=
  ∃ writes, 0 < ts ∧ commits[ts - 1]? = some writes ∧ changes (commits.take (ts - 1)) writes key = true

/-- The last change of a key, and 0 if there is none. -/
def LastChange (commits : List Writes) (key : String) (last : ℕ) : Prop :=
  (last = 0 ∨ ChangedAt commits key last) ∧ ∀ ts, ChangedAt commits key ts → ts ≤ last

section Changes
variable {commits commits' : List Writes} {writes : Writes} {key : String} {ts last : ℕ}

theorem ChangedAt.le_length (h : ChangedAt commits key ts) : ts ≤ commits.length := by
  obtain ⟨writes, hpos, hget, -⟩ := h
  have := (List.getElem?_eq_some_iff.1 hget).1
  omega

/-- Later commits leave the changes as they are. -/
theorem changedAt_of_extends (hp : commits <+: commits') (hts : ts ≤ commits.length) :
    ChangedAt commits' key ts ↔ ChangedAt commits key ts := by
  obtain ⟨rest, rfl⟩ := hp
  have htake : (commits ++ rest).take (ts - 1) = commits.take (ts - 1) :=
    List.take_append_of_le_length (by omega)
  constructor
  · rintro ⟨writes, hpos, hget, hch⟩
    rw [List.getElem?_append_left (by omega)] at hget
    exact ⟨writes, hpos, hget, htake ▸ hch⟩
  · rintro ⟨writes, hpos, hget, hch⟩
    refine ⟨writes, hpos, ?_, htake.symm ▸ hch⟩
    rw [List.getElem?_append_left (by omega)]
    exact hget

theorem changedAt_concat : ChangedAt (commits ++ [writes]) key (commits.length + 1) ↔
    changes commits writes key = true := by
  constructor
  · rintro ⟨w, -, hget, hch⟩
    simp only [Nat.add_sub_cancel, List.getElem?_concat_length, Option.some.injEq,
      List.take_left'] at hget hch
    exact hget ▸ hch
  · intro hch
    exact ⟨writes, Nat.succ_pos _, by simp, by simpa using hch⟩

theorem lastChange_nil (key : String) : LastChange [] key 0 := by
  refine ⟨Or.inl rfl, ?_⟩
  rintro ts hts
  simpa using hts.le_length

theorem lastChange_changes (h : changes commits writes key = true) :
    LastChange (commits ++ [writes]) key (commits.length + 1) := by
  refine ⟨Or.inr (changedAt_concat.2 h), ?_⟩
  intro ts hts
  simpa using hts.le_length

theorem LastChange.keep (hl : LastChange commits key last) (h : changes commits writes key = false) :
    LastChange (commits ++ [writes]) key last := by
  have hold : ∀ {ts}, ts ≤ commits.length →
      (ChangedAt (commits ++ [writes]) key ts ↔ ChangedAt commits key ts) :=
    changedAt_of_extends (List.prefix_append commits [writes])
  constructor
  · rcases hl.1 with h0 | hlast
    · exact Or.inl h0
    · exact Or.inr ((hold hlast.le_length).2 hlast)
  · intro ts hts
    have hle := hts.le_length
    rw [List.length_append, List.length_singleton] at hle
    rcases Nat.lt_or_ge commits.length ts with hlt | hge
    · obtain rfl : ts = commits.length + 1 := by omega
      rw [changedAt_concat, h] at hts
      cases hts
    · exact hl.2 ts ((hold hge).1 hts)

end Changes

/-! ## Chains -/

/-- The newest version of the chain dates the last change, unless the chain was collected, and then
    the last change is not after `low`. -/
structure Latest (low last : ℕ) (chain : List Version) : Prop where
  dates : ∀ v ∈ chain, v.createdAt.val ≤ last ∧ ∀ d, v.deletedAt = some d → d.val ≤ last
  newest : chain = [] ∧ last ≤ low ∨ ∃ c v, chain = c ++ [v] ∧ (v.deletedAt.getD v.createdAt).val = last

section Chain
variable {low low' now last : ℕ} {val : ℕ → Option String} {chain : List Version} {ts : U64}

/-- **The check of `commit`** on a snapshot that is not older than `low`. -/
theorem Latest.lt_iff {versions : Versions} {key : String} (h : Latest low last (chainOf versions key))
    {s : U64} (hs : low ≤ s.val) : s < latestChange versions key ↔ s.val < last := by
  have hlatest : latestChange versions key =
      ((chainOf versions key).getLast?.map Version.lastModified).getD 0 := by
    unfold latestChange chainOf
    cases versions.lookup key <;> rfl
  rw [hlatest]
  rcases h.newest with ⟨hnil, hle⟩ | ⟨c, v, hc, hlast⟩
  · rw [hnil]
    simp
    omega
  · have hcreated := (h.dates v (by rw [hc]; simp)).1
    rw [hc, List.getLast?_concat, Option.map_some, Option.getD_some, Version.lastModified,
      max_eq_left (Fin.le_def.2 (by omega)), Fin.lt_def, hlast]

/-- A key has a value if and only if its newest version is not deleted. -/
theorem Reads.live (h : Reads low now val chain) (hlow : low ≤ now) (hnow : now < 2 ^ 64) :
    (val now).isSome ↔ ∃ c v, chain = c ++ [v] ∧ v.deletedAt = none := by
  have hshow := h.shows ⟨now, hnow⟩ hlow le_rfl
  rw [← show _ = val now from hshow]
  have hclosed : ∀ v ∈ chain, v.deletedAt ≠ none → v.visibleAt ⟨now, hnow⟩ = false := by
    intro v hv hne
    obtain ⟨d, hd⟩ := Option.ne_none_iff_exists'.1 hne
    rw [Bool.eq_false_iff, Ne, visibleAt_iff]
    rintro ⟨-, hvis⟩
    have h1 := Fin.lt_def.1 (hvis d hd)
    have h2 := (h.old v hv).2 d hd
    simp only at h1
    omega
  constructor
  · intro hsome
    rcases List.eq_nil_or_concat chain with rfl | ⟨c, v, rfl⟩
    · cases hsome
    · rw [List.concat_eq_append] at hsome h hclosed ⊢
      refine ⟨c, v, rfl, ?_⟩
      by_contra hne
      have hdrop : ∀ w ∈ c, w.deletedAt ≠ none := by simpa using h.closed
      rw [chainValue_eq_none ?_] at hsome
      · cases hsome
      · intro w hw
        refine hclosed w hw ?_
        rcases List.mem_append.1 hw with hw | hw
        · exact hdrop w hw
        · rw [List.mem_singleton.1 hw]
          exact hne
  · rintro ⟨c, v, rfl, hv⟩
    have hvis : v.visibleAt ⟨now, hnow⟩ = true := by
      rw [visibleAt_iff, hv]
      exact ⟨Fin.le_def.2 (h.old v (by simp)).1, by simp⟩
    rw [chainValue_concat, if_pos hvis]
    rfl

/-- **Setting the key** dates it. -/
theorem Latest.set (hr : Reads low' now val chain) (hts : ts.val = now + 1) (x : String) :
    Latest low (now + 1) (applyWrite ts (some x) chain) := by
  obtain ⟨-, hclose⟩ := hr.close hts
  constructor
  · intro v hv
    rcases List.mem_append.1 hv with hv | hv
    · obtain ⟨h1, d, hd, hle⟩ := hclose v hv
      refine ⟨by omega, fun d' hd' => ?_⟩
      rw [hd] at hd'
      cases hd'
      exact hts ▸ Fin.le_def.1 hle
    · rw [List.mem_singleton.1 hv]
      simp [hts]
  · exact Or.inr ⟨_, _, rfl, hts⟩

/-- **Deleting the key** dates it if it has a value, and does nothing otherwise. -/
theorem Latest.delete (h : Latest low last chain) (hr : Reads low' now val chain) (hlow : low' ≤ now)
    (hts : ts.val = now + 1) :
    Latest low (if (val now).isSome then now + 1 else last) (applyWrite ts none chain) := by
  have hnow : now < 2 ^ 64 := by have := ts.isLt; omega
  show Latest low _ (chain.modifyLast (close ts))
  by_cases hlive : (val now).isSome = true
  · rw [if_pos hlive]
    obtain ⟨-, hclose⟩ := hr.close hts
    obtain ⟨c, v, rfl, hv⟩ := (hr.live hlow hnow).1 hlive
    constructor
    · intro w hw
      obtain ⟨h1, d, hd, hle⟩ := hclose w hw
      refine ⟨by omega, fun d' hd' => ?_⟩
      rw [hd] at hd'
      cases hd'
      exact hts ▸ Fin.le_def.1 hle
    · rw [List.modifyLast_concat]
      exact Or.inr ⟨c, _, rfl, by rw [close_deletedAt, hv]; exact hts⟩
  · rw [if_neg hlive]
    rcases List.eq_nil_or_concat chain with rfl | ⟨c, v, rfl⟩
    · exact h
    · rw [List.concat_eq_append] at hr h ⊢
      have hv : v.deletedAt ≠ none := fun hv => hlive ((hr.live hlow hnow).2 ⟨c, v, rfl, hv⟩)
      have hsame : close ts v = v := by rw [close, if_neg (by simpa using hv)]
      rw [List.modifyLast_concat, hsame]
      exact h

/-- **A collection** removes the newest version only with the whole chain. -/
theorem Latest.collect (h : Latest low last chain) (hr : Reads low' now val chain) (watermark : U64) :
    Latest (max low (watermark.val - 1)) last (chain.filter fun v => v.kept watermark) := by
  refine ⟨fun v hv => h.dates v (List.mem_of_mem_filter hv), ?_⟩
  rcases h.newest with ⟨rfl, hle⟩ | ⟨c, v, rfl, hlast⟩
  · exact Or.inl ⟨rfl, hle.trans (le_max_left _ _)⟩
  · by_cases hk : v.kept watermark = true
    · refine Or.inr ⟨c.filter fun v => v.kept watermark, v, ?_, hlast⟩
      rw [List.filter_append, List.filter_cons_of_pos hk, List.filter_nil]
    · -- it was deleted below the watermark, and so were all before it
      have hkept : ∀ {w : Version}, w.kept watermark = true ↔
          ∀ d, w.deletedAt = some d → watermark ≤ d := by
        intro w
        unfold Version.kept
        cases w.deletedAt <;> simp
      obtain ⟨d, hd, hlt⟩ : ∃ d, v.deletedAt = some d ∧ d < watermark := by
        rw [hkept] at hk
        push Not at hk
        exact hk
      rw [hd, Option.getD_some] at hlast
      have hlt := Fin.lt_def.1 hlt
      refine Or.inl ⟨List.filter_eq_nil_iff.2 ?_, by omega⟩
      intro w hw
      rcases List.mem_append.1 hw with hwc | hwv
      · have hclosed : ∀ w ∈ c, w.deletedAt ≠ none := by simpa using hr.closed
        obtain ⟨d', hd'⟩ := Option.ne_none_iff_exists'.1 (hclosed w hwc)
        have := (h.dates w hw).2 d' hd'
        rw [hkept]
        intro hall
        have := Fin.le_def.1 (hall d' hd')
        omega
      · rw [List.mem_singleton.1 hwv]
        exact hk

end Chain

/-! ## Version maps -/

/-- The newest version of every key dates its last change. -/
def MapLatest (low : ℕ) (commits : List Writes) (versions : Versions) : Prop :=
  ∀ key, ∃ last, LastChange commits key last ∧ Latest low last (chainOf versions key)

section Map
variable {low low' : ℕ} {commits : List Writes} {versions : Versions} {writes : Writes} {ts : U64}

theorem mapLatest_nil : MapLatest 0 [] [] := by
  intro key
  exact ⟨0, lastChange_nil key, by simp [chainOf], Or.inl ⟨rfl, le_rfl⟩⟩

/-- **A commit** dates the keys that it changes. -/
theorem MapLatest.applyVersions (h : MapLatest low commits versions) (hr : MapReads low' commits versions)
    (hlow : low' ≤ commits.length) (hw : SortedKeys writes) (hts : ts.val = commits.length + 1) :
    MapLatest low (commits ++ [writes]) (applyVersions versions writes ts) := by
  intro key
  obtain ⟨last, hlast, hlatest⟩ := h key
  have hreads := hr.reads key
  have hval : valueAfter (commits.take commits.length) key = valueAfter commits key := by
    rw [List.take_length]
  rw [chainOf_applyVersions hw]
  rcases hl : writes.lookup key with _ | _ | x
  · exact ⟨last, hlast.keep (by simp [changes, hl]), hlatest⟩
  · have hdel := hlatest.delete hreads hlow hts
    simp only [hval] at hdel
    by_cases hlive : (valueAfter commits key).isSome = true
    · rw [if_pos hlive] at hdel
      exact ⟨_, lastChange_changes (by simp [changes, hl, hlive]), hdel⟩
    · rw [if_neg hlive] at hdel
      exact ⟨last, hlast.keep (by simp [changes, hl, hlive]), hdel⟩
  · exact ⟨_, lastChange_changes (by simp [changes, hl]), Latest.set hreads hts x⟩

/-- **A collection** keeps the dates after it. -/
theorem MapLatest.retainVersions (h : MapLatest low commits versions) (hr : MapReads low' commits versions)
    (watermark : U64) :
    MapLatest (max low (watermark.val - 1)) commits (retainVersions watermark versions) := by
  intro key
  obtain ⟨last, hlast, hlatest⟩ := h key
  refine ⟨last, hlast, ?_⟩
  rw [chainOf_retainVersions hr.sorted]
  exact hlatest.collect (hr.reads key) watermark

/-- **Recovery** dates every change. -/
theorem Replayed.latest {R : List TxnRecord} {r : Replay} (h : Replayed R r commits) :
    MapLatest 0 commits r.versions := by
  induction h with
  | nil => exact mapLatest_nil
  | @snoc R r r' commits record hrep hl hp hr ih =>
    have hi := hrep.inv
    obtain ⟨txn, snapshot, rfl, rfl⟩ | ⟨txn, key, value, hw, -, rfl⟩ | ⟨txn, ts, rfl, -, -, rfl⟩ |
      ⟨txn, rfl, rfl⟩ := replayRecord_cases hr
    · exact ih
    · rw [grow_of_isWrite hw]
      exact ih
    · exact ih.applyVersions hi.reads (Nat.zero_le _) (sortedKeys_pending hi txn) hp
    · exact ih

end Map

/-! ## Runs -/

/-- The version map of a running store dates the changes after every active snapshot. -/
def Dated (sys : System) (commits : List Writes) : Prop :=
  ∀ inner, sys.store = some inner → ∃ low, MapLatest low commits inner.versions ∧
    low ≤ commits.length ∧ ∀ e ∈ inner.active, low ≤ e.2.val

section Step
variable {sys sys' : System} {l : Label} {commits commits' : List Writes} {ids : List U64}

theorem eq_of_noCommit {h : ℕ} {call : Call} {result : TxnRes Answer} (hn : NoCommit call result)
    (hext : Extends sys (.called h call result) commits commits') : commits' = commits := by
  cases call with
  | commit =>
    rcases result with e | a
    · exact hext
    · cases hn
  | _ => exact hext

/-- **A call** keeps the dates. -/
theorem called_dated {d : Disk Unit} {inner : Inner} {txns : ℕ → Option Transaction} {h : ℕ}
    {t : Transaction} (hinv : Inv ⟨d, some inner, txns⟩ commits ids)
    (hd : Dated ⟨d, some inner, txns⟩ commits) (ht : txns h = some t) {call : Call} {out : Outcome}
    (heff : Effect t inner call out)
    (hext : Extends ⟨d, some inner, txns⟩ (.called h call out.result) commits commits') :
    ∃ low, MapLatest low commits' out.inner.versions ∧ low ≤ commits'.length ∧
      ∀ e ∈ out.inner.active, low ≤ e.2.val := by
  obtain ⟨r, hlog, hm⟩ := hinv
  obtain ⟨low, hlatest, hlow, hact⟩ := hd inner rfl
  have herase : ∀ e ∈ eraseKey t.id inner.active, low ≤ e.2.val :=
    fun e he => hact e (List.mem_of_mem_filter he)
  cases heff with
  | none hne _ =>
    rw [eq_of_noCommit (by cases call <;> trivial) hext]
    exact ⟨low, hlatest, hlow, hact⟩
  | @wrote call key value hw hl =>
    rw [eq_of_noCommit (by cases call <;> trivial) hext]
    exact ⟨low, hlatest, hlow, hact⟩
  | aborted hw hn =>
    rw [eq_of_noCommit hn hext]
    exact ⟨low, hlatest, hlow, herase⟩
  | dropped hw hn =>
    rw [eq_of_noCommit hn hext]
    exact ⟨low, hlatest, hlow, herase⟩
  | @committed ts hts =>
    obtain ⟨t', ht', rfl, hlen⟩ := hext
    rw [show txns h = some t' from ht'] at ht
    cases ht
    obtain ⟨low', hreads, hlow', -⟩ := hm.reads
    have hsort := (hlog.inv.pending _ _ (hm.opened h t ht').pending).1
    refine ⟨low, hlatest.applyVersions hreads hlow' hsort (by simpa using hlen), ?_, herase⟩
    rw [List.length_append]
    omega

/-- **One step** keeps the dates. -/
theorem step_dated (hinv : Inv sys commits ids) (hd : Dated sys commits) (hstep : Step sys l sys')
    (hext : Extends sys l commits commits') : Dated sys' commits' := by
  cases hstep with
  | @opened d ops inner hopen =>
    obtain ⟨ops', inner', r, hopen', hinner, -, hlog, -⟩ := Stored.open hinv
    rw [hopen] at hopen'
    cases hopen'
    cases hext
    intro inner' hs
    cases hs
    obtain ⟨f, R, Q, -, -, -, hrep⟩ := hlog.replayed
    rw [hinner]
    exact ⟨0, hrep.latest, Nat.zero_le _, by simp⟩
  | openFailed => intro inner hs; cases hs
  | openCrash => intro inner hs; cases hs
  | @began d inner txns ops t inner' h hbegin hfree =>
    cases hext
    obtain ⟨r, hlog, hm⟩ := hinv
    obtain ⟨low, hlatest, hlow, hact⟩ := hd inner rfl
    have hts : inner.commitTs.val = commits.length := by rw [hm.commitTs]; exact hlog.inv.commitTs
    obtain ⟨e, he⟩ | ⟨next, hnext, he⟩ := begin_cases inner
    · rw [he] at hbegin
      cases hbegin
    · rw [he] at hbegin
      cases hbegin
      intro inner' hs
      cases hs
      refine ⟨low, hlatest, hlow, fun e he => ?_⟩
      rcases mem_insertEntry he with rfl | he
      · simp only
        omega
      · exact hact e he
  | @beginFailed d inner txns ops e inner' hbegin =>
    cases hext
    obtain ⟨e', he⟩ | ⟨next, hnext, he⟩ := begin_cases inner
    · rw [he] at hbegin
      cases hbegin
      intro inner' hs
      cases hs
      exact hd inner rfl
    · rw [he] at hbegin
      cases hbegin
  | beginCrash => intro inner hs; cases hs
  | @called d inner txns h t call ht =>
    have hopen : t.finished = false := by
      obtain ⟨r, -, hm⟩ := hinv
      exact (hm.opened h t ht).unfinished
    intro inner' hs
    cases hs
    exact called_dated hinv hd ht (call_effect inner hopen call) hext
  | callCrash => intro inner hs; cases hs
  | @gc d inner txns =>
    cases hext
    obtain ⟨r, hlog, hm⟩ := hinv
    obtain ⟨low, hlatest, hlow, hact⟩ := hd inner rfl
    obtain ⟨low', hreads, -, hact'⟩ := hm.reads
    have hts : inner.commitTs.val = commits.length := by rw [hm.commitTs]; exact hlog.inv.commitTs
    intro inner' hs
    cases hs
    refine ⟨_, hlatest.retainVersions hreads inner.watermark, ?_, fun e he => ?_⟩
    · rcases watermark_le inner with hw | ⟨e, he, hw⟩
      · omega
      · have := hact' e he
        rw [hw]
        omega
    · have h1 := hact e he
      have h2 := Fin.le_def.1 (watermark_le_active inner he)
      omega
  | crash => intro inner hs; cases hs

end Step

/-- What a commit that conflicts leaves: the chains, the timestamp, and for every other transaction
    the result of every call. -/
def ConflictKeeps (txns : ℕ → Option Transaction) (h : ℕ) (inner : Inner) (out : Outcome) : Prop :=
  out.inner.versions = inner.versions ∧ out.inner.commitTs = inner.commitTs ∧
  ∀ h' ≠ h, ∀ t', txns h' = some t' → Function.update txns h out.txn h' = some t' ∧
    ∀ call : Call, (call.run t' out.inner).result = (call.run t' inner).result

/-- If the transactions behind two handles are unfinished now, and the first one later commits with
    a value for a key, then the second one cannot commit any more with a value for it. -/
def NeverBoth (sys : System) (h₁ h₂ : ℕ) : Prop :=
  ∀ t₁ t₂, sys.txns h₁ = some t₁ → sys.txns h₂ = some t₂ →
  ∀ more₁ sys₁ u₁ ts sys₁' more₂ sys₂ u₂ inner₂, Trace Step sys more₁ sys₁ →
    sys₁.txns h₁ = some u₁ → u₁.id = t₁.id →
    Step sys₁ (.called h₁ .commit (.ok (.timestamp ts))) sys₁' → Trace Step sys₁' more₂ sys₂ →
    sys₂.store = some inner₂ → sys₂.txns h₂ = some u₂ → u₂.id = t₂.id →
  ∀ key v₁ v₂, u₁.writes.lookup key = some (some v₁) → u₂.writes.lookup key = some (some v₂) →
    ∃ key', (Call.commit.run u₂ inner₂).result = .error (.conflict key')

section Commit
variable {t : Transaction} {inner : Inner}

theorem commit_conflict_iff (ht : t.finished = false) :
    (∃ key, (Call.commit.run t inner).result = .error (.conflict key)) ↔
      ∃ e ∈ t.writes, t.snapshot < latestChange inner.versions e.1 := by
  rcases hf : t.writes.find? fun w => decide (latestChange inner.versions w.1 > t.snapshot) with _ | w
  · have hnone : ¬ ∃ e ∈ t.writes, t.snapshot < latestChange inner.versions e.1 := by
      rintro ⟨e, he, hlt⟩
      have := List.find?_eq_none.1 hf e he
      simp only [gt_iff_lt, decide_eq_true_eq] at this
      exact this hlt
    refine iff_of_false ?_ hnone
    rintro ⟨key, hkey⟩
    rcases hts : inner.commitTs.checkedAdd 1 with _ | ts
    · simp only [Call.run, Transaction.commit, ensureOpen_ok ht, hf, hts] at hkey
      cases hkey
    · simp only [Call.run, Transaction.commit, ensureOpen_ok ht, hf, hts,
        appendRecord_of_loggable (TxnRecord.loggable_commit t.id ts)] at hkey
      cases hkey
  · refine iff_of_true ⟨w.1, ?_⟩ ⟨w, List.mem_of_find?_eq_some hf, ?_⟩
    · simp only [Call.run, Transaction.commit, ensureOpen_ok ht, hf, finishAborted_eq]
      rfl
    · simpa using List.find?_some hf

theorem conflict_keeps {key : String} (ht : t.finished = false)
    (hkey : (Call.commit.run t inner).result = .error (.conflict key)) :
    (Call.commit.run t inner).inner.versions = inner.versions ∧
      (Call.commit.run t inner).inner.commitTs = inner.commitTs := by
  have heff := call_effect inner ht .commit
  generalize Call.commit.run t inner = out at heff hkey
  cases heff with
  | none => exact ⟨rfl, rfl⟩
  | wrote => exact ⟨rfl, rfl⟩
  | aborted => exact ⟨rfl, rfl⟩
  | dropped => exact ⟨rfl, rfl⟩
  | committed => cases hkey

/-- The result of a call depends on the chains and on the timestamp. -/
theorem result_congr {inner' : Inner} (hv : inner'.versions = inner.versions)
    (hts : inner'.commitTs = inner.commitTs) (call : Call) :
    (call.run t inner').result = (call.run t inner).result := by
  cases call with
  | get key => simp only [Call.run, Transaction.get, Inner.getAt, hv]
  | scanPrefix pre => simp only [Call.run, Transaction.scanPrefix, hv]
  | set key value => rfl
  | delete key => rfl
  | commit =>
    simp only [Call.run, Transaction.commit, hv, hts, finishAborted_eq]
    repeat' split
    all_goals simp_all
  | abort =>
    simp only [Call.run, Transaction.abort, finishAborted_eq]
    repeat' split
    all_goals simp_all
  | drop => rfl

end Commit

/-- What is known of a state after a run, with the dates. -/
structure Watched (steps : List (System × Label)) (sys : System) (commits : List Writes) : Prop where
  tracked : Tracked steps sys commits
  dated : Dated sys commits

section Watched
variable {steps more : List (System × Label)} {sys sys' : System} {l : Label} {commits : List Writes}
  {h : ℕ} {t : Transaction} {inner : Inner}

theorem watched_initial : Watched [] initial [] := by
  refine ⟨tracked_initial, ?_⟩
  intro inner hs
  cases hs

theorem Watched.step (hW : Watched steps sys commits) (hstep : Step sys l sys') :
    ∃ commits', Extends sys l commits commits' ∧ Watched ((sys, l) :: steps) sys' commits' := by
  obtain ⟨commits', hext, hT⟩ := hW.tracked.step hstep
  exact ⟨commits', hext, hT, step_dated hW.tracked.inv hW.dated hstep hext⟩

theorem Watched.path (hW : Watched steps sys commits) (hp : Trace Step sys more sys') :
    ∃ commits', commits <+: commits' ∧ Watched (more ++ steps) sys' commits' := by
  induction hp with
  | refl => exact ⟨commits, List.prefix_refl _, hW⟩
  | step _ hs ih =>
    obtain ⟨c₁, hp₁, hW₁⟩ := ih
    obtain ⟨c₂, hext, hW₂⟩ := hW₁.step hs
    exact ⟨c₂, hp₁.trans hext.grows, hW₂⟩

theorem Watched.snapshot_le (hW : Watched steps sys commits) (hs : sys.store = some inner)
    (ht : sys.txns h = some t) : t.finished = false ∧ t.snapshot.val ≤ commits.length := by
  have hinv := hW.tracked.inv
  rcases sys with ⟨d, store, txns⟩
  simp only at hs ht
  subst hs
  obtain ⟨r, -, hm⟩ := hinv
  obtain ⟨low, -, -, hle⟩ := hm.snapshot ht
  exact ⟨(hm.opened h t ht).unfinished, hle⟩

/-- **The check of `commit`** sees every change after the snapshot, and only those. -/
theorem Watched.conflict_iff (hW : Watched steps sys commits) (hs : sys.store = some inner)
    (ht : sys.txns h = some t) :
    (∃ key, (Call.commit.run t inner).result = .error (.conflict key)) ↔
      ∃ key ts, (t.writes.lookup key).isSome ∧ t.snapshot.val < ts ∧ ChangedAt commits key ts := by
  obtain ⟨hfin, -⟩ := hW.snapshot_le hs ht
  obtain ⟨low, hlatest, -, hact⟩ := hW.dated inner hs
  have hinv := hW.tracked.inv
  rcases sys with ⟨d, store, txns⟩
  simp only at hs ht
  subst hs
  obtain ⟨r, -, hm⟩ := hinv
  have hlow : low ≤ t.snapshot.val := hact _ (mem_of_lookup (hm.opened h t ht).active)
  rw [commit_conflict_iff hfin]
  constructor
  · rintro ⟨e, he, hlt⟩
    obtain ⟨last, hlast, hl⟩ := hlatest e.1
    rw [hl.lt_iff hlow] at hlt
    refine ⟨e.1, last, lookup_isSome_iff.2 ⟨e.2, he⟩, hlt, ?_⟩
    rcases hlast.1 with rfl | hch
    · exact absurd hlt (Nat.not_lt_zero _)
    · exact hch
  · rintro ⟨key, ts, hkey, hlt, hch⟩
    obtain ⟨v, hv⟩ := lookup_isSome_iff.1 hkey
    obtain ⟨last, hlast, hl⟩ := hlatest key
    refine ⟨(key, v), hv, (hl.lt_iff hlow).2 ?_⟩
    have := hlast.2 ts hch
    omega

/-- **Of two overlapping transactions** that set the same key, one conflicts. -/
theorem Watched.neverBoth (hW : Watched steps sys commits) (hs : sys.store = some inner) (h₁ h₂ : ℕ) :
    NeverBoth sys h₁ h₂ := by
  intro t₁ t₂ ht₁ ht₂ more₁ sys₁ u₁ ts sys₁' more₂ sys₂ u₂ inner₂ hp₁ hu₁ hid₁ hcommit hp₂ hs₂ hu₂ hid₂
    key v₁ v₂ hv₁ hv₂
  obtain ⟨-, hle⟩ := hW.snapshot_le hs ht₂
  obtain ⟨c₁, hpre₁, hW₁⟩ := hW.path hp₁
  obtain ⟨c₁', hext, hW₁'⟩ := hW₁.step hcommit
  obtain ⟨c₂, hpre₂, hW₂⟩ := hW₁'.path hp₂
  have hsnap := (hW.tracked.same_txn ((hp₁.step hcommit).trans hp₂) ht₂ hu₂ hid₂).1
  obtain ⟨u, hu, rfl, -⟩ := hext
  rw [hu₁] at hu
  cases hu
  have hchange : ChangedAt (c₁ ++ [u₁.writes]) key (c₁.length + 1) :=
    changedAt_concat.2 (by simp [changes, hv₁])
  refine (hW₂.conflict_iff hs₂ hu₂).2 ⟨key, c₁.length + 1, by rw [hv₂]; rfl, ?_, ?_⟩
  · have := hpre₁.length_le
    rw [hsnap]
    omega
  · exact (changedAt_of_extends hpre₂ (by simp)).2 hchange

end Watched

/-- **First committer wins, exactly**: in every state of every run, the commit of a transaction
    conflicts if and only if a key that it writes was changed by a transaction that committed after
    its snapshot; it then leaves everything else as it was.  Of two overlapping transactions that
    set the same key, at most one commits. -/
theorem first_committer_wins {steps : List (System × Label)} {sys : System}
    (hrun : Trace Step initial steps sys) : ∃ commits, Explained steps sys commits ∧
    ∀ inner h t, sys.store = some inner → sys.txns h = some t →
      ((∃ key, (Call.commit.run t inner).result = .error (.conflict key)) ↔
        ∃ key ts, (t.writes.lookup key).isSome ∧ t.snapshot.val < ts ∧ ChangedAt commits key ts) ∧
      (∀ key, (Call.commit.run t inner).result = .error (.conflict key) →
        ConflictKeeps sys.txns h inner (Call.commit.run t inner)) ∧
      ∀ h', NeverBoth sys h h' := by
  obtain ⟨commits, -, hW⟩ := watched_initial.path hrun
  rw [List.append_nil] at hW
  refine ⟨commits, hW.tracked.explained, ?_⟩
  intro inner h t hs ht
  refine ⟨hW.conflict_iff hs ht, fun key hkey => ?_, hW.neverBoth hs h⟩
  obtain ⟨hfin, -⟩ := hW.snapshot_le hs ht
  obtain ⟨hv, hts⟩ := conflict_keeps hfin hkey
  refine ⟨hv, hts, fun h' hne t' ht' => ⟨?_, result_congr hv hts⟩⟩
  rw [Function.update_of_ne hne]
  exact ht'

/-- A run in which two transactions set the same key, and the first one commits. -/
theorem conflict_run : ∃ steps sys inner t, Trace Step initial steps sys ∧ sys.store = some inner ∧
    sys.txns 1 = some t ∧ t = { id := 2, snapshot := 0, writes := [("a", some "2")] } ∧
    inner = ⟨[("a", [⟨"1", 1, none⟩])], [(2, 0)], 3, 1⟩ := by
  have h1 : Step initial .opened ⟨initial.disk.runOps [.create ()], some ⟨[], [], 1, 0⟩, noTxns⟩ :=
    .opened rfl
  have h2 := @Step.began (initial.disk.runOps [.create ()]) ⟨[], [], 1, 0⟩ noTxns _ _ _ 0 rfl rfl
  have hrun := ((Trace.refl initial).step h1).step h2
  have hrun := hrun.step (@Step.began _ _ _ _ _ _ 1 rfl rfl)
  have hrun := hrun.step (step_called (h := 0) rfl
    (run_set _ rfl (show (TxnRecord.set 1 "a" "1").Loggable from ⟨_, rfl, by decide⟩)))
  have hrun := hrun.step (step_called (h := 1) rfl
    (run_set _ rfl (show (TxnRecord.set 2 "a" "2").Loggable from ⟨_, rfl, by decide⟩)))
  have hrun := hrun.step (step_called (h := 0) rfl
    (show Call.commit.run _ _ = ⟨_, .ok (.timestamp 1), _, _⟩ from rfl))
  exact ⟨_, _, _, _, hrun, rfl, rfl, rfl, rfl⟩

/-- In that run the second transaction conflicts, because of a commit after its snapshot. -/
theorem first_committer_wins_second : ∃ steps sys inner t commits, Trace Step initial steps sys ∧
    Explained steps sys commits ∧ sys.store = some inner ∧ sys.txns 1 = some t ∧
    (Call.commit.run t inner).result = .error (.conflict "a") ∧
    ∃ key ts, (t.writes.lookup key).isSome ∧ t.snapshot.val < ts ∧ ChangedAt commits key ts := by
  obtain ⟨steps, sys, inner, t, hrun, hs, ht, htxn, hinner⟩ := conflict_run
  have hres : (Call.commit.run t inner).result = .error (.conflict "a") := by
    rw [htxn, hinner]
    rfl
  obtain ⟨commits, hex, hwins⟩ := first_committer_wins hrun
  exact ⟨steps, sys, inner, t, commits, hrun, hex, hs, ht, hres,
    (hwins inner 1 t hs ht).1.1 ⟨"a", hres⟩⟩

end Mvcc

end NutDb
