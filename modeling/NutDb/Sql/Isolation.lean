/-
  Tables do not touch each other.

  All tables share one map.  `belongs table key`: the key is that of the catalog
  entry of the table, or starts as those of its rows do.  A statement on a table
  reads and writes keys of this table only (`Confined.executeData`), and no key
  belongs to two tables, since a name holds no separator (`not_belongs`).

  What a statement reads is watched (`Watched`): the code is generic in the
  transaction, so it also runs on one that notes the keys.
-/
import NutDb.Sql.Transactions

namespace NutDb.Sql

open Lib Mvcc

/-! ## Keys of a table -/

/-- The key belongs to the table: its catalog entry is under this key, or one of its rows can be. -/
def belongs (table key : String) : Bool := key == catalogKey table || startsWith key (rowPrefix table)

/-- The table that a statement is executed on. -/
def Statement.table : Statement → Option String
  | .createTable table _ | .insert table _ _ | .update table _ _ | .delete table _ => some table
  | .select query | .explain query => some query.table
  | .begin | .commit | .rollback => none

section Keys
variable {table table' key : String}

theorem belongs_iff : belongs table key = true ↔
    key = catalogKey table ∨ startsWith key (rowPrefix table) = true := by
  simp [belongs]

theorem belongs_catalogKey (table : String) : belongs table (catalogKey table) = true :=
  belongs_iff.2 (Or.inl rfl)

theorem belongs_of_startsWith (h : startsWith key (rowPrefix table) = true) : belongs table key = true :=
  belongs_iff.2 (Or.inr h)

theorem startsWith_append (pre rest : String) : startsWith (pre ++ rest) pre = true :=
  startsWith_iff.2 (by simp)

theorem exists_append_of_startsWith {pre : String} (h : startsWith key pre = true) :
    ∃ rest, key = pre ++ rest := by
  obtain ⟨rest, hrest⟩ := startsWith_iff.1 h
  refine ⟨String.ofList rest, String.toList_inj.1 ?_⟩
  rw [String.toList_append, String.toList_ofList, hrest]

/-- **No key belongs to two tables.** -/
theorem not_belongs (h : IsName table) (h' : IsName table') (hne : table ≠ table')
    (hkey : belongs table key = true) : belongs table' key = false := by
  rw [Bool.eq_false_iff, Ne, belongs_iff]
  rcases belongs_iff.1 hkey with rfl | hrow
  · rintro (hcat | hrow')
    · exact hne (catalogKey_injective hcat)
    · rw [not_startsWith_catalogKey] at hrow'
      cases hrow'
  · rintro (rfl | hrow')
    · rw [not_startsWith_catalogKey] at hrow
      cases hrow
    · obtain ⟨rest, rfl⟩ := exists_append_of_startsWith hrow
      exact hne ((startsWith_rowPrefix h h').1 hrow').symm

end Keys

/-! ## Statements on a table -/

/-- The calls on the keys of a table keep `I`, and a scan finds only keys with its prefix. -/
structure Confined {σ : Type} [Txn σ] (table : String) (I : σ → Prop) : Prop where
  get : ∀ {key}, belongs table key = true → Act.Preserves I (Txn.get key)
  set : ∀ {key} value, belongs table key = true → Act.Preserves I (Txn.set key value)
  delete : ∀ {key}, belongs table key = true → Act.Preserves I (Txn.delete key)
  scanPrefix : Act.Preserves I (Txn.scanPrefix (rowPrefix table))
  found : Act.Returns (Txn.scanPrefix (rowPrefix table) : Act σ _) fun entries =>
    ∀ e ∈ entries, startsWith e.1 (rowPrefix table) = true

section Schema
variable {schema : Schema} {row : Row} {value : Value} {key : String}

theorem decodeSchema_name {name encoded : String} (h : decodeSchema name encoded = .ok schema) :
    schema.name = name := by
  obtain ⟨columns, -, h⟩ := Res.bind_eq_ok.1 h
  obtain ⟨u, -, h⟩ := Res.bind_eq_ok.1 h
  cases h
  rfl

/-- The key of a row, from its primary value. -/
theorem eq_of_rowKeyForPrimary (h : rowKeyForPrimary schema value = .ok key) :
    key = rowPrefix schema.name ++ hex (encodeValue value) := by
  unfold rowKeyForPrimary at h
  split_ifs at h
  · cases h
  · obtain ⟨index, -, h⟩ := Res.bind_eq_ok.1 h
    obtain ⟨column, -, h⟩ := Res.bind_eq_ok.1 h
    obtain ⟨u, -, h⟩ := Res.bind_eq_ok.1 h
    exact (Except.ok.inj h).symm

theorem belongs_of_rowKeyForPrimary (h : rowKeyForPrimary schema value = .ok key) :
    belongs schema.name key = true := by
  rw [eq_of_rowKeyForPrimary h]
  exact belongs_of_startsWith (startsWith_append _ _)

theorem belongs_of_rowKey (h : rowKey schema row = .ok key) : belongs schema.name key = true := by
  obtain ⟨index, -, h⟩ := Res.bind_eq_ok.1 h
  obtain ⟨value, -, h⟩ := Res.bind_eq_ok.1 h
  split_ifs at h
  · cases h
  · exact belongs_of_rowKeyForPrimary h

/-- **Primary values have different keys.** -/
theorem rowKeyForPrimary_injective {value' : Value} (h : rowKeyForPrimary schema value = .ok key)
    (h' : rowKeyForPrimary schema value' = .ok key) : value = value' :=
  primary_of_key ((eq_of_rowKeyForPrimary h).symm.trans (eq_of_rowKeyForPrimary h'))

end Schema

namespace Confined

variable {σ : Type} [Txn σ] {table : String} {I : σ → Prop} {schema : Schema}

open Act

theorem loadSchema (h : Confined table I) {α : Type} {f : Schema → Act σ α}
    (hf : ∀ schema, schema.name = table → Preserves I (f schema)) :
    Preserves I (loadSchema table >>= f) := by
  refine preserves_returned (Q := fun schema => schema.name = table) ?_ ?_ hf
  · refine preserves_bind (h.get (belongs_catalogKey table)) fun encoded => ?_
    cases encoded with
    | none => exact preserves_lift _
    | some encoded => exact preserves_lift _
  · refine returns_then fun encoded => ?_
    cases encoded with
    | none => exact returns_lift fun _ hload => nomatch hload
    | some encoded => exact returns_lift fun _ hload => decodeSchema_name hload

theorem allRows (h : Confined schema.name I) : Preserves I (allRows schema) :=
  preserves_bind h.scanPrefix fun _ => preserves_lift _

theorem mapM_keys {entries : List (String × String)} {rows : List (String × Row)}
    (h : entries.mapM (fun e : String × String => do
      let row ← decodeRow e.2 schema
      return (e.1, row)) = (.ok rows : Res _)) : rows.map Prod.fst = entries.map Prod.fst := by
  induction entries generalizing rows with
  | nil =>
    cases h
    rfl
  | cons e entries ih =>
    rw [List.mapM_cons] at h
    obtain ⟨r, hr, h⟩ := Res.bind_eq_ok.1 h
    obtain ⟨rest, hrest, h⟩ := Res.bind_eq_ok.1 h
    obtain ⟨row, -, hr⟩ := Res.bind_eq_ok.1 hr
    cases h
    cases hr
    rw [List.map_cons, List.map_cons, ih hrest]

/-- The rows of a table are under its keys. -/
theorem allRows_belong (h : Confined schema.name I) : Returns (Sql.allRows schema : Act σ _) fun rows =>
    ∀ e ∈ rows, belongs schema.name e.1 = true := by
  refine returns_bind h.found fun entries hentries => returns_lift fun rows hrows e he => ?_
  have hmem : e.1 ∈ entries.map Prod.fst := by
    rw [← mapM_keys hrows]
    exact List.mem_map_of_mem he
  obtain ⟨e', he', hkey⟩ := List.mem_map.1 hmem
  rw [← hkey]
  exact belongs_of_startsWith (hentries e' he')

theorem accessRows (h : Confined schema.name I) (access : Access) : Preserves I (accessRows schema access) := by
  cases access with
  | fullScan => exact preserves_bind h.allRows fun _ => preserves_pure _
  | primaryKey value =>
    refine preserves_ite (preserves_pure _) (preserves_computed fun key hkey => ?_)
    refine preserves_bind (h.get (belongs_of_rowKeyForPrimary hkey)) fun encoded => ?_
    cases encoded with
    | none => exact preserves_pure _
    | some encoded => exact preserves_bind (preserves_lift _) fun _ => preserves_pure _

theorem updateRow (h : Confined schema.name I) (assignments : List (String × Value)) {key : String}
    (hkey : belongs schema.name key = true) (row : Row) :
    Preserves I (updateRow schema assignments key row) := by
  refine preserves_bind (preserves_lift _) fun row => preserves_computed fun newKey hnew => ?_
  have hnew := belongs_of_rowKey hnew
  refine preserves_ite ?_ (h.set _ hnew)
  refine preserves_bind (h.get hnew) fun found => ?_
  exact preserves_ite (preserves_lift _) (preserves_bind (h.delete hkey) fun _ => h.set _ hnew)

/-- **A statement on a table** keeps what the calls on its keys keep. -/
theorem executeData (h : Confined table I) {statement : Statement} (hs : statement.table = some table) :
    Preserves I (executeData statement) := by
  cases statement with
  | createTable table columns =>
    obtain rfl := Option.some.inj hs
    refine preserves_bind (preserves_lift _) fun _ => ?_
    refine preserves_bind (h.get (belongs_catalogKey _)) fun found => ?_
    refine preserves_ite (preserves_lift _) (preserves_bind ?_ fun _ => preserves_pure _)
    exact preserves_bind (preserves_lift _) fun _ => h.set _ (belongs_catalogKey _)
  | insert table columns values =>
    obtain rfl := Option.some.inj hs
    refine h.loadSchema fun schema hname => ?_
    subst hname
    refine preserves_ite (preserves_lift _) (preserves_bind (preserves_lift _) fun row => ?_)
    refine preserves_computed fun key hkey => ?_
    refine preserves_bind (h.get (belongs_of_rowKey hkey)) fun found => ?_
    refine preserves_ite (preserves_lift _) ?_
    exact preserves_bind (h.set _ (belongs_of_rowKey hkey)) fun _ => preserves_pure _
  | select select =>
    obtain rfl := Option.some.inj hs
    refine h.loadSchema fun schema hname => preserves_bind (preserves_lift _) fun access => ?_
    rw [← hname] at h
    exact preserves_bind (h.accessRows access) fun _ => preserves_lift _
  | update table assignments filter =>
    obtain rfl := Option.some.inj hs
    refine h.loadSchema fun schema hname => ?_
    subst hname
    refine preserves_returned h.allRows h.allRows_belong fun rows hrows => ?_
    exact forMatching_preserves (fun e he => h.updateRow assignments (hrows e he) e.2) 0
  | delete table filter =>
    obtain rfl := Option.some.inj hs
    refine h.loadSchema fun schema hname => ?_
    subst hname
    refine preserves_returned h.allRows h.allRows_belong fun rows hrows => ?_
    exact forMatching_preserves (fun e he => h.delete (hrows e he)) 0
  | explain select =>
    obtain rfl := Option.some.inj hs
    exact h.loadSchema fun schema _ => preserves_bind (preserves_lift _) fun _ => preserves_pure _
  | begin => cases hs
  | commit => cases hs
  | rollback => cases hs

end Confined

/-! ## What is read -/

/-- A transaction, and the keys that were read in it. -/
structure Watched (σ : Type) where
  txn : σ
  read : List String

/-- A call of the transaction, after which the keys that it has read are noted. -/
def Watched.call {σ α : Type} (x : Act σ α) (keys : Res α → List String) : Act (Watched σ) α := fun w =>
  match x.run w.txn with
  | (result, txn) => (result, ⟨txn, w.read ++ keys result⟩)

/-- The keys that a scan has found. -/
def foundKeys : Res (List (String × String)) → List String
  | .ok entries => entries.map Prod.fst
  | .error _ => []

instance {σ : Type} [Txn σ] : Txn (Watched σ) where
  get key := Watched.call (Txn.get key) fun _ => [key]
  scanPrefix pre := Watched.call (Txn.scanPrefix pre) foundKeys
  set key value := Watched.call (Txn.set key value) fun _ => []
  delete key := Watched.call (Txn.delete key) fun _ => []

section Watched
variable {σ : Type} [Txn σ] {table : String}

omit [Txn σ] in
theorem Watched.call_simulates {α : Type} (x : Act σ α) (keys : Res α → List String) :
    Act.Simulates (fun (w : Watched σ) s => w.txn = s) (Watched.call x keys) x := by
  rintro w s rfl
  exact ⟨rfl, rfl⟩

/-- **Watching** changes nothing. -/
theorem Watched.simulates : TxnSimulates fun (w : Watched σ) s => w.txn = s :=
  ⟨fun _ => call_simulates _ _, fun _ => call_simulates _ _, fun _ _ => call_simulates _ _,
    fun _ => call_simulates _ _⟩

omit [Txn σ] in
theorem Watched.preserves_call {α : Type} {P : String → Prop} {x : Act σ α} {keys : Res α → List String}
    (h : ∀ s, ∀ key ∈ keys (x.run s).1, P key) :
    Act.Preserves (fun w : Watched σ => ∀ key ∈ w.read, P key) (Watched.call x keys) := by
  intro w hw key hkey
  rcases List.mem_append.1 hkey with hkey | hkey
  · exact hw key hkey
  · exact h w.txn key hkey

/-- **What is read of a table**: only its keys. -/
theorem Watched.confined (hfound : Act.Returns (Txn.scanPrefix (rowPrefix table) : Act σ _) fun entries =>
      ∀ e ∈ entries, startsWith e.1 (rowPrefix table) = true) :
    Confined table fun w : Watched σ => ∀ key ∈ w.read, belongs table key = true := by
  refine ⟨fun hkey => preserves_call fun s key' hkey' => ?_, fun value hkey => preserves_call fun s key' hkey' => ?_,
    fun hkey => preserves_call fun s key' hkey' => ?_, preserves_call fun s key' hkey' => ?_, ?_⟩
  · rw [List.mem_singleton.1 hkey']
    exact hkey
  · cases hkey'
  · cases hkey'
  · rcases hrun : (Txn.scanPrefix (rowPrefix table) : Act σ _).run s with ⟨fault | entries, s'⟩
    · rw [hrun] at hkey'
      cases hkey'
    · rw [hrun] at hkey'
      obtain ⟨e, he, rfl⟩ := List.mem_map.1 hkey'
      exact belongs_of_startsWith (hfound s entries s' hrun e he)
  · intro w entries w' hrun
    have hscan : ((Txn.scanPrefix (rowPrefix table) : Act σ _).run w.txn).1 = .ok entries := congrArg Prod.fst hrun
    exact hfound w.txn entries _ (Prod.ext hscan rfl)

end Watched

/-- A scan of a transaction finds only keys with the prefix. -/
theorem startsWith_of_scanPrefix {t : Transaction} {inner : Inner} {pre : String}
    {rows : List (String × String)} (h : t.scanPrefix inner pre = .ok rows) :
    ∀ e ∈ rows, startsWith e.1 pre = true := by
  let Starts := fun rows : List (String × String) => ∀ e ∈ rows, startsWith e.1 pre = true
  have hinsert : ∀ {rows key value}, Starts rows → startsWith key pre = true →
      Starts (insertEntry key value rows) := by
    intro rows key value hrows hkey e he
    rcases mem_insertEntry he with rfl | he
    · exact hkey
    · exact hrows e he
  unfold Transaction.scanPrefix at h
  rcases hopen : t.ensureOpen with fault | u
  · rw [hopen] at h
    cases h
  · rw [hopen] at h
    cases h
    refine List.foldlRecOn (motive := Starts) _ _ (List.foldlRecOn (motive := Starts) _ _
      (fun _ hnone => nomatch hnone) fun rows hrows e he => ?_) fun rows hrows w hw => ?_
    · rcases visibleValue inner.versions e.1 t.snapshot with _ | value
      · exact hrows
      · exact hinsert hrows (List.mem_filter.1 he).2
    · rcases w.2 with _ | value
      · exact fun e he => hrows e (List.mem_filter.1 he).1
      · have hpre := List.mem_takeWhile_imp hw
        exact hinsert hrows hpre

theorem session_found (pre : String) : Act.Returns (Txn.scanPrefix pre : Act Session _) fun entries =>
    ∀ e ∈ entries, startsWith e.1 pre = true := by
  intro s entries s' hrun
  have hscan : txnResult (s.txn.scanPrefix s.inner pre) = .ok entries := congrArg Prod.fst hrun
  rcases h : s.txn.scanPrefix s.inner pre with fault | rows
  · rw [h] at hscan
    cases hscan
  · rw [h] at hscan
    cases hscan
    exact startsWith_of_scanPrefix h

/-! ## What is written -/

/-- Both maps have the same entries of the table. -/
def SameTable (table : String) (m m' : Tables) : Prop := ∀ key, belongs table key = true → m'.get key = m.get key

theorem SameTable.entries {table : String} {m m' : Tables} (h : SameTable table m m') :
    (m'.entries.filter fun e => belongs table e.1) = m.entries.filter fun e => belongs table e.1 := by
  refine sortedKeys_ext (List.Pairwise.filter _ m'.sorted) (List.Pairwise.filter _ m.sorted) fun key => ?_
  rw [lookup_filter (belongs table), lookup_filter (belongs table)]
  split_ifs with hkey
  · exact h key hkey
  · rfl

/-- **The calls on the keys of one table** leave the entries of another as they are. -/
theorem sameTable_confined {table other : String} (m : Tables)
    (hother : ∀ key, belongs table key = true → belongs other key = false) :
    Confined table (SameTable other m) := by
  have hne : ∀ {key k}, belongs table key = true → belongs other k = true → k ≠ key := by
    rintro key k hkey hk rfl
    rw [hother k hkey] at hk
    cases hk
  refine ⟨fun _ m' h => h, fun {key} value hkey m' h => ?_, fun {key} hkey m' h => ?_, fun m' h => h, ?_⟩
  · rw [set_run]
    cases refusal (.set 0 key value) with
    | none =>
      intro k hk
      exact SortedMap.get_insert.trans ((if_neg (hne hkey hk)).trans (h k hk))
    | some fault => exact h
  · rw [delete_run]
    cases refusal (.delete 0 key) with
    | none =>
      intro k hk
      exact SortedMap.get_erase.trans ((if_neg (hne hkey hk)).trans (h k hk))
    | some fault => exact h
  · intro m' entries m'' hrun e he
    have hentries : m'.entries.filter (fun e => startsWith e.1 (rowPrefix table)) = entries :=
      Except.ok.inj (congrArg Prod.fst hrun)
    rw [← hentries] at he
    exact (List.mem_filter.1 he).2

/-- What a transaction keeps of its tables is kept of what the database shows. -/
theorem Database.visible_withTransaction {α : Type} {I : Tables → Prop} {operation : Act Tables α}
    (hop : Act.Preserves I operation) {db : Database} (h : I db.visible) :
    I ((Database.withTransaction operation).run db).2.visible := by
  obtain ⟨tables, active, nextTxn, commitTs⟩ := db
  cases active with
  | some m => exact hop m h
  | none =>
    have hm := hop tables h
    simp only [Act.run, Database.withTransaction, Database.beginTxn] at hm ⊢
    rcases nextTxn.checkedAdd 1 with _ | next
    · exact h
    · rcases hrun : operation tables with ⟨fault | result, m⟩
      · simp only [hrun]
        exact h
      · rw [hrun] at hm
        simp only [hrun, Database.commitTxn]
        rcases commitTs.checkedAdd 1 with _ | timestamp
        · exact h
        · exact hm

/-! ## Isolation -/

/-- The engines that can come about, statement by statement. -/
inductive SqlEngine.Stepped : SqlEngine → Prop
  | opened {e} : SqlEngine.open (fun _ => none) = .ok e → Stepped e
  | executed {e source statements statement} : Stepped e → parse source = .ok statements →
      statement ∈ statements → Stepped ((executeStatement statement).run e).2
  | reopened {e d e'} : Stepped e → d = e.disk ∨ e.disk.Crashed d → SqlEngine.open d = .ok e' → Stepped e'

/-- What an engine shows of a table: its catalog entry, and its rows. -/
def SqlEngine.entriesOf (e : SqlEngine) (table : String) : List (String × String) :=
  e.visible.filter fun entry => belongs table entry.1

section Engine
variable {e : SqlEngine} {db : Database} {c : Created} {statement : Statement} {table table' : String}

/-- A script is executed statement by statement. -/
theorem SqlEngine.Stepped.executeAll {source : String} {statements rest : List Statement} (h : e.Stepped)
    (hparse : parse source = .ok statements) (hrest : ∀ s ∈ rest, s ∈ statements) :
    ((SqlEngine.executeAll rest).run e).2.Stepped := by
  induction rest generalizing e with
  | nil => exact h
  | cons statement rest ih =>
    have h' := h.executed hparse (hrest statement List.mem_cons_self)
    rw [SqlEngine.executeAll]
    rcases hrun : (SqlEngine.executeStatement statement).run e with ⟨fault | result, e'⟩
    · rw [hrun] at h'
      rw [Act.run_bind_error hrun]
      exact h'
    · rw [hrun] at h'
      have h'' := ih h' fun s hs => hrest s (List.mem_cons_of_mem _ hs)
      rw [Act.run_bind_ok hrun, Act.run_bind]
      rcases hmore : (SqlEngine.executeAll rest).run e' with ⟨fault | results, e''⟩
      · rw [hmore] at h''
        exact h''
      · rw [hmore] at h''
        exact h''

/-- The engines between scripts are among those between statements. -/
theorem SqlEngine.Reached.stepped (h : e.Reached) : e.Stepped := by
  induction h with
  | opened hopen => exact .opened hopen
  | @executed e source _ ih =>
    rw [SqlEngine.execute]
    rcases hparse : parse source with fault | statements
    · exact ih
    · exact ih.executeAll hparse fun _ hs => hs
  | reopened _ hdisk hopen ih => exact .reopened ih hdisk hopen

theorem SqlEngine.Stepped.rep (h : e.Stepped) : ∃ db, e.Rep db := by
  induction h with
  | opened hopen => exact (SqlEngine.Reached.opened hopen).rep
  | @executed e source statements statement _ _ _ ih =>
    obtain ⟨db, hrep⟩ := ih
    exact ⟨_, (executeStatement_simulates statement e db hrep).2⟩
  | reopened _ hdisk hopen ih =>
    obtain ⟨db, hrep⟩ := ih
    obtain ⟨e', next, hopen', hrep'⟩ := hrep.reopen hdisk
    rw [hopen] at hopen'
    cases hopen'
    exact ⟨_, hrep'⟩

theorem Statement.onTables_of_table (h : statement.table = some table) : statement.OnTables := by
  refine ⟨?_, ?_, ?_⟩ <;> (rintro rfl; cases h)

/-- **A statement on one table** leaves what is shown of another as it is. -/
theorem SqlEngine.Stepped.entriesOf (h : e.Stepped) (hs : statement.table = some table)
    (hother : ∀ key, belongs table key = true → belongs table' key = false) :
    ((SqlEngine.executeStatement statement).run e).2.entriesOf table' = e.entriesOf table' := by
  obtain ⟨db, hrep⟩ := h.rep
  have hrep' := (executeStatement_simulates statement e db hrep).2
  rw [Database.executeStatement_onTables (Statement.onTables_of_table hs)] at hrep'
  rw [SqlEngine.entriesOf, SqlEngine.entriesOf, hrep.visible, hrep'.visible]
  refine SameTable.entries (Database.visible_withTransaction ?_ fun _ _ => rfl)
  exact (sameTable_confined db.visible hother).executeData hs

theorem SqlEngine.hasTable_iff {schema : Schema} : e.HasTable table schema ↔
    ∃ text, (catalogKey table, text) ∈ e.entriesOf table ∧ decodeSchema table text = .ok schema := by
  simp [SqlEngine.HasTable, SqlEngine.entriesOf, belongs_catalogKey]

end Engine

/-- **Tables are isolated.**  A statement on a table, in every state of the engine, leaves the schema and
    the rows that are shown of any other table as they are, and it reads no key of the other table; and
    different values of a primary key are under different keys. -/
theorem tables_isolated :
    (∀ table other, Lexed table → Lexed other → table ≠ other →
      ∀ statement : Statement, statement.table = some table →
        (∀ e : SqlEngine, e.Stepped →
          ((SqlEngine.executeStatement statement).run e).2.entriesOf other = e.entriesOf other ∧
          ∀ schema, ((SqlEngine.executeStatement statement).run e).2.HasTable other schema ↔
            e.HasTable other schema) ∧
        ∀ s : Session, ∃ w : Watched Session,
          (executeData statement : Act (Watched Session) SqlResult).run ⟨s, []⟩ =
            (((executeData statement).run s).1, w) ∧ w.txn = ((executeData statement).run s).2 ∧
          ∀ key ∈ w.read, belongs table key = true ∧ belongs other key = false) ∧
    ∀ schema value value' key, rowKeyForPrimary schema value = .ok key →
      rowKeyForPrimary schema value' = .ok key → value = value' := by
  refine ⟨fun table other htable hother hne statement hs => ?_, fun schema value value' key =>
    rowKeyForPrimary_injective⟩
  have hapart : ∀ key, belongs table key = true → belongs other key = false :=
    fun key => not_belongs htable.isName hother.isName hne
  refine ⟨fun e he => ?_, fun s => ?_⟩
  · have hentries := he.entriesOf hs hapart
    refine ⟨hentries, fun schema => ?_⟩
    rw [SqlEngine.hasTable_iff, SqlEngine.hasTable_iff, hentries]
  · obtain ⟨hres, htxn⟩ := Watched.simulates.executeData statement ⟨s, []⟩ s rfl
    refine ⟨_, Prod.ext hres rfl, htxn, fun key hkey => ?_⟩
    have hread := (Watched.confined (session_found (rowPrefix table))).executeData hs ⟨s, []⟩
      (fun _ hnone => nomatch hnone) key hkey
    exact ⟨hread, hapart key hread⟩

/-- Two tables with a row each; the name of one starts as that of the other. -/
def twoTables : String :=
  "create table item (id integer primary key); create table items (id integer primary key);
   insert into item (id) values (1); insert into items (id) values (1)"

/-- The engine that has executed the script. -/
def twoTablesEngine : SqlEngine := ((SqlEngine.execute twoTables).run .fresh).2

/-- What a statement has read there. -/
def readOf (statement : Statement) (e : SqlEngine) : List String :=
  ((executeData statement : Act (Watched Session) SqlResult).run ⟨⟨e.disk, e.inner, e.reader⟩, []⟩).2.read

theorem tables_isolated_delete :
    twoTablesEngine.visible.map Prod.fst =
      ["__CATALOG:ITEM", "__CATALOG:ITEMS", "__ROW:ITEM:490100000000000000", "__ROW:ITEMS:490100000000000000"] ∧
    ((SqlEngine.executeStatement (.delete "ITEM" none)).run twoTablesEngine).2.entriesOf "ITEMS" =
      twoTablesEngine.entriesOf "ITEMS" ∧
    readOf (.delete "ITEM" none) twoTablesEngine = ["__CATALOG:ITEM", "__ROW:ITEM:490100000000000000"] ∧
    (∀ key ∈ readOf (.delete "ITEM" none) twoTablesEngine, belongs "ITEMS" key = false) ∧
    rowKeyForPrimary ⟨"ITEM", [⟨"ID", .integer, true⟩]⟩ (.integer ⟨2, by decide⟩) ≠
      .ok "__ROW:ITEM:490100000000000000" := by
  have hitem : Lexed "ITEM" :=
    ⟨"item", [⟨.word "ITEM", 0⟩, ⟨.done, 4⟩], by decide +kernel, _, List.mem_cons_self, rfl⟩
  have hitems : Lexed "ITEMS" :=
    ⟨"items", [⟨.word "ITEMS", 0⟩, ⟨.done, 5⟩], by decide +kernel, _, List.mem_cons_self, rfl⟩
  have hreached : twoTablesEngine.Reached := .executed twoTables (.opened SqlEngine.open_fresh)
  have h := tables_isolated.1 "ITEM" "ITEMS" hitem hitems (by decide) (.delete "ITEM" none) rfl
  obtain ⟨w, hw, -, hread⟩ := h.2 ⟨twoTablesEngine.disk, twoTablesEngine.inner, twoTablesEngine.reader⟩
  have hreadOf : readOf (.delete "ITEM" none) twoTablesEngine = w.read := congrArg (fun o => o.2.read) hw
  refine ⟨by decide +kernel, (h.1 _ hreached.stepped).1, by decide +kernel, fun key hkey => ?_, fun hkey => ?_⟩
  · rw [hreadOf] at hkey
    exact (hread key hkey).2
  · have heq := tables_isolated.2 ⟨"ITEM", [⟨"ID", .integer, true⟩]⟩ (.integer ⟨1, by decide⟩)
      (.integer ⟨2, by decide⟩) _ (by decide +kernel) hkey
    revert heq
    decide

end NutDb.Sql
