/-
  What `scan_prefix` returns.

  The keys with a common prefix are an interval of the order of keys, so a
  transaction finds its own writes of them in one window of its buffer.  A
  transaction whose snapshot and writes amount to the map `m` reads the values of
  `m`, and scans the entries of `m`, in the order of their keys.

  In every state that is reached, also by crashes and by faults of the log, a scan
  and the reads of an unfinished transaction agree (`scan_agrees`).
-/
import NutDb.Mvcc.Faults
import NutDb.Lib.SortedMap

namespace NutDb

open Lib

namespace Mvcc

/-! ## Prefixes -/

theorem startsWith_iff {key pre : String} : startsWith key pre = true ↔ pre.toList <+: key.toList :=
  List.isPrefixOf_iff_prefix

theorem not_lt_of_starts {p l : List Char} (h : p <+: l) : ¬ l < p := by
  induction p generalizing l with
  | nil => exact List.not_lt_nil l
  | cons c p ih =>
    obtain ⟨l', rfl, hl⟩ := List.cons_prefix_iff.1 h
    rw [List.cons_lt_cons_iff]
    rintro (hlt | ⟨-, hlt⟩)
    · exact lt_irrefl c hlt
    · exact ih hl hlt

theorem prefix_of_not_lt {p a b : List Char} (hp : ¬ a < p) (hab : ¬ b < a) (hb : p <+: b) : p <+: a := by
  induction p generalizing a b with
  | nil => exact List.nil_prefix
  | cons c p ih =>
    obtain ⟨b', rfl, hb'⟩ := List.cons_prefix_iff.1 hb
    cases a with
    | nil => exact absurd (List.nil_lt_cons c p) hp
    | cons d a =>
      rw [List.cons_lt_cons_iff, not_or, not_and] at hp hab
      obtain rfl : c = d := le_antisymm (not_lt.1 hp.1) (not_lt.1 hab.1)
      exact List.cons_prefix_cons.2 ⟨rfl, ih (hp.2 rfl) (hab.2 rfl) hb'⟩

theorem le_of_startsWith {key pre : String} (h : startsWith key pre = true) : pre ≤ key :=
  not_lt.1 (mt String.lt_iff_toList_lt.1 (not_lt_of_starts (startsWith_iff.1 h)))

theorem startsWith_of_le {key key' pre : String} (hlow : pre ≤ key) (hle : key ≤ key')
    (h : startsWith key' pre = true) : startsWith key pre = true :=
  startsWith_iff.2 (prefix_of_not_lt (mt String.lt_iff_toList_lt.2 (not_lt.2 hlow))
    (mt String.lt_iff_toList_lt.2 (not_lt.2 hle)) (startsWith_iff.1 h))

/-! ## Reads -/

section Rows
variable {t : Transaction} {inner : Inner}

theorem Transaction.get_eq (ht : t.finished = false) (inner : Inner) (key : String) :
    t.get inner key = .ok ((t.writes.lookup key).getD (inner.getAt key t.snapshot)) := by
  rw [Transaction.get, ensureOpen_ok ht]
  rcases t.writes.lookup key with _ | value
  · rfl
  · rfl

/-- **The rows of a scan** have what the transaction reads of the keys with the prefix. -/
theorem Transaction.scanPrefix_rows (ht : t.finished = false) (hw : SortedKeys t.writes) (inner : Inner)
    (pre : String) : ∃ rows, t.scanPrefix inner pre = .ok rows ∧ SortedKeys rows ∧
      ∀ key, rows.lookup key = if startsWith key pre = true then
        (t.writes.lookup key).getD (inner.getAt key t.snapshot) else none := by
  have hown : (t.writes.dropWhile fun w => decide (w.1 < pre)).takeWhile (fun w => startsWith w.1 pre) =
      t.writes.filter fun w => startsWith w.1 pre :=
    window_eq_filter (p := fun key => startsWith key pre) hw (fun key => le_of_startsWith)
      fun key key' hlow hle => startsWith_of_le hlow hle
  have hsorted : SortedKeys (t.writes.filter fun w => startsWith w.1 pre) := List.Pairwise.filter _ hw
  rw [Transaction.scanPrefix, ensureOpen_ok ht, hown]
  refine ⟨_, rfl, ?_, fun key => ?_⟩
  · refine sortedKeys_foldl (fun rows w hrows => ?_) _ (sortedKeys_foldl (fun rows e hrows => ?_) _
      List.Pairwise.nil)
    · rcases w.2 with _ | value
      · exact sortedKeys_eraseKey hrows
      · exact sortedKeys_insertEntry hrows
    · rcases visibleValue inner.versions e.1 t.snapshot with _ | value
      · exact hrows
      · exact sortedKeys_insertEntry hrows
  · rw [lookup_foldl_change (fun rows w => by cases w.2 <;> rfl) hsorted,
      lookup_foldl_collect (f := fun key => visibleValue inner.versions key t.snapshot)
        (fun rows e => by cases visibleValue inner.versions e.1 t.snapshot <;> rfl),
      lookup_filter (fun key => startsWith key pre)]
    by_cases hp : startsWith key pre = true
    · rw [if_pos hp, if_pos hp]
      congr 1
      -- a key without versions has no value
      rcases hv : visibleValue inner.versions key t.snapshot with _ | value
      · simp [Inner.getAt, hv]
      · have hmem : ∃ e ∈ inner.versions.filter fun e => startsWith e.1 pre, e.1 = key := by
          rcases hl : inner.versions.lookup key with _ | chain
          · rw [visibleValue, hl] at hv
            cases hv
          · exact ⟨_, List.mem_filter.2 ⟨mem_of_lookup hl, hp⟩, rfl⟩
        rw [if_pos ⟨hmem, rfl⟩, Inner.getAt, hv]
    · rw [if_neg hp, if_neg hp, if_neg]
      · rfl
      · rintro ⟨⟨e, he, rfl⟩, -⟩
        exact hp (List.mem_filter.1 he).2

end Rows

/-- What a transaction reads, as a map: its writes over its snapshot. -/
def Transaction.Views (t : Transaction) (inner : Inner) (m : SortedMap String String) : Prop :=
  ∀ key, m.get key = (t.writes.lookup key).getD (inner.getAt key t.snapshot)

section Views
variable {t : Transaction} {inner : Inner} {m : SortedMap String String}

theorem Transaction.Views.get (h : t.Views inner m) (ht : t.finished = false) (key : String) :
    t.get inner key = .ok (m.get key) := by
  rw [Transaction.get_eq ht, h key]

/-- **A scan returns the entries with the prefix.** -/
theorem Transaction.Views.scanPrefix (h : t.Views inner m) (ht : t.finished = false)
    (hw : SortedKeys t.writes) (pre : String) :
    t.scanPrefix inner pre = .ok (m.entries.filter fun e => startsWith e.1 pre) := by
  obtain ⟨rows, hrows, hsorted, hlookup⟩ := Transaction.scanPrefix_rows ht hw inner pre
  rw [hrows]
  refine congrArg Except.ok (sortedKeys_ext hsorted (List.Pairwise.filter _ m.sorted) fun key => ?_)
  rw [hlookup, lookup_filter (fun key => startsWith key pre), ← h key]
  rfl

end Views

/-! ## Scans in runs -/

/-- A step of the store: with a crash, on a log that fails, or neither. -/
def AnyStep (sys : System) : Label ⊕ FaultLabel → System → Prop
  | .inl l, sys' => Step sys l sys'
  | .inr l, sys' => FaultStep sys l sys'

/-- The transactions are unfinished, and their buffers are sorted. -/
def Buffered (txns : ℕ → Option Transaction) : Prop :=
  ∀ h t, txns h = some t → t.finished = false ∧ SortedKeys t.writes

section Runs
variable {txns : ℕ → Option Transaction} {sys sys' : System}

theorem buffered_noTxns : Buffered noTxns := fun _ _ h => (nomatch h)

theorem Buffered.update (hb : Buffered txns) (h : ℕ) {o : Option Transaction}
    (ho : ∀ t, o = some t → t.finished = false ∧ SortedKeys t.writes) :
    Buffered (Function.update txns h o) := by
  intro h' t' ht'
  by_cases hh : h' = h
  · rw [hh, Function.update_self] at ht'
    exact ho t' ht'
  · rw [Function.update_of_ne hh] at ht'
    exact hb h' t' ht'

/-- A call keeps the buffer of its transaction. -/
theorem runOr_buffered {t : Transaction} (ht : t.finished = false ∧ SortedKeys t.writes) (f : LogFaults)
    (inner : Inner) (call : Call) : ∀ t', (call.runOr f t inner).txn = some t' →
      t'.finished = false ∧ SortedKeys t'.writes := by
  intro t' ht'
  have heffect := runOr_effect f inner ht.1 call
  generalize call.runOr f t inner = outcome at ht' heffect
  cases heffect with
  | none hne =>
    cases ht'
    exact ht
  | wrote hne hl =>
    cases ht'
    exact ⟨ht.1, sortedKeys_insertEntry ht.2⟩
  | ended hne hno hops => cases ht'
  | lost hc hs hts => cases ht'
  | committed hc hs hts => cases ht'

theorem beginOr_buffered {f : LogFaults} {inner inner' : Inner} {ops : List FileOp} {t : Transaction}
    (h : inner.beginOr f = (ops, .ok t, inner')) : t.finished = false ∧ SortedKeys t.writes := by
  rcases beginOr_cases f inner with ⟨e, he⟩ | ⟨next, -, ⟨e, ops', -, he⟩ | ⟨ops', -, he⟩⟩
  · rw [he] at h
    cases h
  · rw [he] at h
    cases h
  · rw [he] at h
    cases h
    exact ⟨rfl, List.Pairwise.nil⟩

theorem FaultStep.buffered {l : FaultLabel} (hstep : FaultStep sys l sys') (hb : Buffered sys.txns) :
    Buffered sys'.txns := by
  cases hstep with
  | opened _ => exact hb
  | closed => exact buffered_noTxns
  | @began _ _ _ _ t _ h _ hbegin _ =>
    refine Buffered.update hb h fun t' ht' => ?_
    cases ht'
    exact beginOr_buffered hbegin
  | beginFailed _ => exact hb
  | @called _ inner _ h t call f ht => exact Buffered.update hb h (runOr_buffered (hb h t ht) f inner call)
  | gc => exact hb

theorem Step.buffered {l : Label} (hstep : Step sys l sys') (hb : Buffered sys.txns) :
    Buffered sys'.txns := by
  cases hstep with
  | opened _ => exact hb
  | openFailed _ => exact hb
  | openCrash _ => exact buffered_noTxns
  | @began _ inner _ _ t _ h hbegin _ =>
    refine Buffered.update hb h fun t' ht' => ?_
    cases ht'
    exact beginOr_buffered (f := {}) (by rw [beginOr_sound, hbegin])
  | beginFailed _ => exact hb
  | beginCrash _ => exact buffered_noTxns
  | @called _ inner _ h t call ht =>
    refine Buffered.update hb h ?_
    rw [← runOr_sound]
    exact runOr_buffered (hb h t ht) {} inner call
  | callCrash _ _ _ => exact buffered_noTxns
  | gc => exact hb
  | crash _ => exact buffered_noTxns

theorem Step.any {l : Label} (h : Step sys l sys') : AnyStep sys (.inl l) sys' := h

theorem AnyStep.buffered {l : Label ⊕ FaultLabel} (hb : Buffered sys.txns) (hstep : AnyStep sys l sys') :
    Buffered sys'.txns := by
  rcases l with l | l
  · exact Step.buffered hstep hb
  · exact FaultStep.buffered hstep hb

/-- **Scans agree with reads**: in every state that is reached, a scan of a prefix returns what the
    transaction reads of the keys with the prefix, each once and in ascending order. -/
theorem scan_agrees {steps : List (System × (Label ⊕ FaultLabel))} {inner : Inner} {h : ℕ} {t : Transaction}
    (hrun : Trace AnyStep initial steps sys) (_hs : sys.store = some inner)
    (ht : sys.txns h = some t) (pre : String) :
    ∃ rows, t.scanPrefix inner pre = .ok rows ∧ SortedKeys rows ∧
      ∀ key value, (key, value) ∈ rows ↔
        startsWith key pre = true ∧ t.get inner key = .ok (some value) := by
  obtain ⟨hopen, hw⟩ := hrun.inv (I := fun sys => Buffered sys.txns) AnyStep.buffered buffered_noTxns h t ht
  obtain ⟨rows, hrows, hsorted, hlookup⟩ := Transaction.scanPrefix_rows hopen hw inner pre
  refine ⟨rows, hrows, hsorted, fun key value => ?_⟩
  have hmem : (key, value) ∈ rows ↔ rows.lookup key = some value := ⟨lookup_of_mem hsorted, mem_of_lookup⟩
  rw [hmem, hlookup, Transaction.get_eq hopen]
  by_cases hp : startsWith key pre = true
  · rw [if_pos hp, Except.ok.injEq]
    exact ⟨fun heq => ⟨hp, heq⟩, fun heq => heq.2⟩
  · rw [if_neg hp]
    exact ⟨fun heq => (nomatch heq), fun heq => absurd heq.1 hp⟩

/-- A run in which a transaction has buffered a write. -/
theorem scan_agrees_write : ∃ steps sys inner t rows, Trace AnyStep initial steps sys ∧
    sys.store = some inner ∧ sys.txns 0 = some t ∧ t.scanPrefix inner "" = .ok rows ∧ SortedKeys rows ∧
    ("a", "1") ∈ rows := by
  have hopen : Step initial .opened
      ⟨initial.disk.runOps [.create ()], some ⟨[], [], 1, 0⟩, noTxns⟩ := .opened rfl
  have hbegin := @Step.began (initial.disk.runOps [.create ()]) ⟨[], [], 1, 0⟩ noTxns _ _ _ 0 rfl rfl
  have hwrite : ∀ inner, (Call.set "a" "1").run { id := 1, snapshot := 0 } inner =
      ⟨[.append (Wal.frame (TxnRecord.set 1 "a" "1").payload)], .ok .unit, inner,
        some { id := 1, snapshot := 0, writes := [("a", some "1")] }⟩ := by
    intro inner
    have hl : (TxnRecord.set 1 "a" "1").Loggable := ⟨_, rfl, by decide⟩
    simp only [Call.run, Transaction.set, Transaction.write, ensureOpen_ok, appendRecord_of_loggable hl]
    rfl
  have hcall : ∀ d inner (txns : ℕ → Option Transaction), txns 0 = some { id := 1, snapshot := 0 } →
      ∃ d', Step ⟨d, some inner, txns⟩ (.called 0 (.set "a" "1") (.ok .unit)) ⟨d', some inner,
        Function.update txns 0 (some { id := 1, snapshot := 0, writes := [("a", some "1")] })⟩ := by
    intro d inner txns ht
    have hstep : Step ⟨d, some inner, txns⟩ _ _ := .called (.set "a" "1") ht
    rw [hwrite] at hstep
    exact ⟨_, hstep⟩
  obtain ⟨d', hset⟩ := hcall _ _ (Function.update noTxns 0 (some { id := 1, snapshot := 0 })) rfl
  have hrun := (((Trace.refl initial).step hopen.any).step hbegin.any).step hset.any
  obtain ⟨rows, hrows, hsorted, hmem⟩ := scan_agrees (h := 0)
    (t := { id := 1, snapshot := 0, writes := [("a", some "1")] }) hrun rfl rfl ""
  exact ⟨_, _, _, _, rows, hrun, rfl, rfl, hrows, hsorted, (hmem "a" "1").2 ⟨rfl, rfl⟩⟩

end Runs

end Mvcc

end NutDb
