/-
  Runs of the engine.

  `Created` are the schemas with which the tables were created: those that are
  committed, and those that the open transaction sees.  `Tracked` are the engines
  that can come about, together with these schemas.  In all of them the store is
  sound (`storage_sound`).
-/
import NutDb.Sql.Storage

namespace NutDb.Sql

open Lib Mvcc

/-! ## Created tables -/

/-- The schemas of the tables that were created, by name. -/
structure Created where
  committed : String → Option Schema
  active : Option (String → Option Schema)

namespace Created

/-- No tables. -/
def none : Created := ⟨fun _ => .none, .none⟩

/-- The tables that the next statement sees. -/
def visible (c : Created) : String → Option Schema := c.active.getD c.committed

/-- The tables after a statement that has returned `result`. -/
def after (c : Created) (statement : Statement) (result : Res SqlResult) : Created :=
  match statement, result with
  | .begin, .ok _ => { c with active := some c.committed }
  | .begin, .error _ => c
  | .commit, .ok _ => ⟨c.visible, .none⟩
  | .commit, .error _ => { c with active := .none }
  | .rollback, _ => { c with active := .none }
  | other, result =>
    match c.active with
    | some schemas => { c with active := some (createdBy schemas other result) }
    | .none => { c with committed := createdBy c.committed other result }

/-- The tables after the statements of a script, of which the first that fails is the last. -/
def afterAll (c : Created) (e : SqlEngine) : List Statement → Created
  | [] => c
  | statement :: statements =>
    match (SqlEngine.executeStatement statement).run e with
    | (.ok result, e') => (c.after statement (.ok result)).afterAll e' statements
    | (.error fault, _) => c.after statement (.error fault)

/-- The tables after a script. -/
def afterScript (c : Created) (e : SqlEngine) (source : String) : Created :=
  match parse source with
  | .ok statements => c.afterAll e statements
  | .error _ => c

end Created

/-- The engines that can come about, with the tables that were created. -/
inductive SqlEngine.Tracked : SqlEngine → Created → Prop
  | opened {e} : SqlEngine.open (fun _ => none) = .ok e → Tracked e .none
  | executed {e c} (source : String) : Tracked e c →
      Tracked ((execute source).run e).2 (c.afterScript e source)
  | reopened {e c d e'} : Tracked e c → d = e.disk ∨ e.disk.Crashed d → SqlEngine.open d = .ok e' →
      Tracked e' ⟨c.committed, none⟩

/-- A new engine. -/
def SqlEngine.fresh : SqlEngine := ⟨Disk.runOps (fun _ => none) [.create ()], ⟨[], [], 1, 0⟩, none⟩

theorem SqlEngine.open_fresh : SqlEngine.open (fun _ => none) = .ok .fresh := rfl

theorem SqlEngine.Tracked.reached {e : SqlEngine} {c : Created} (h : e.Tracked c) : e.Reached := by
  induction h with
  | opened hopen => exact .opened hopen
  | executed source _ ih => exact .executed source ih
  | reopened _ hdisk hopen ih => exact .reopened ih hdisk hopen

theorem SqlEngine.Reached.tracked {e : SqlEngine} (h : e.Reached) : ∃ c, e.Tracked c := by
  induction h with
  | opened hopen => exact ⟨_, .opened hopen⟩
  | executed source _ ih =>
    obtain ⟨c, hc⟩ := ih
    exact ⟨_, .executed source hc⟩
  | reopened _ hdisk hopen ih =>
    obtain ⟨c, hc⟩ := ih
    exact ⟨_, .reopened hc hdisk hopen⟩

/-! ## Sound databases -/

/-- The committed tables are sound, and so are those of the open transaction. -/
structure Database.IsSound (db : Database) (c : Created) : Prop where
  committed : Sound c.committed db.tables
  active : Option.Rel Sound c.active db.active

section Sound
variable {db : Database} {c : Created} {e : SqlEngine}

theorem Database.IsSound.visible (h : db.IsSound c) : Sound c.visible db.visible := by
  obtain ⟨tables, active, nextTxn, commitTs⟩ := db
  obtain ⟨committed, schemas⟩ := c
  obtain ⟨h1, h2⟩ := h
  cases h2 with
  | none => exact h1
  | some h2 => exact h2

/-- **Operations in a transaction** keep the database sound. -/
theorem withTransaction_sound {operation : Act Tables SqlResult} {statement : Statement}
    (hop : ∀ schemas m, Sound schemas m →
      Sound (createdBy schemas statement (operation.run m).1) (operation.run m).2)
    (hafter : ∀ c result, Created.after c statement result =
      match c.active with
      | some schemas => { c with active := some (createdBy schemas statement result) }
      | none => { c with committed := createdBy c.committed statement result })
    (h : db.IsSound c) :
    Database.IsSound ((Database.withTransaction operation).run db).2
      (c.after statement ((Database.withTransaction operation).run db).1) := by
  obtain ⟨tables, active, nextTxn, commitTs⟩ := db
  obtain ⟨committed, schemas⟩ := c
  obtain ⟨h1, h2⟩ := h
  have hfail : ∀ fault s, createdBy s statement (.error fault) = s := by
    intro fault s
    cases statement <;> rfl
  rw [hafter]
  cases h2 with
  | @some schemas m h2 => exact ⟨h1, .some (hop schemas m h2)⟩
  | none =>
    have hm := hop committed tables h1
    simp only [Act.run, Database.withTransaction, Database.beginTxn] at hm ⊢
    rcases nextTxn.checkedAdd 1 with _ | next
    · simp only [Mvcc.invalid, Res.fail, hfail]
      exact ⟨h1, .none⟩
    · rcases hrun : operation tables with ⟨fault | result, m⟩
      · simp only [hrun, hfail]
        exact ⟨h1, .none⟩
      · rw [hrun] at hm
        simp only [hrun, Database.commitTxn]
        rcases commitTs.checkedAdd 1 with _ | timestamp
        · simp only [Mvcc.invalid, Res.fail, hfail]
          exact ⟨h1, .none⟩
        · exact ⟨hm, .none⟩

/-- **Statements** keep the database sound. -/
theorem executeStatement_sound {statement : Statement} (hnamed : statement.Named) (h : db.IsSound c) :
    Database.IsSound ((Database.executeStatement statement).run db).2
      (c.after statement ((Database.executeStatement statement).run db).1) := by
  have hop : ∀ schemas m, Sound schemas m → Sound
      (createdBy schemas statement ((executeData statement : Act Tables SqlResult).run m).1)
      ((executeData statement : Act Tables SqlResult).run m).2 :=
    fun schemas m hm => executeData_sound hm hnamed
  cases statement with
  | begin =>
    obtain ⟨tables, active, nextTxn, commitTs⟩ := db
    obtain ⟨committed, schemas⟩ := c
    obtain ⟨h1, h2⟩ := h
    change Database.IsSound (Database.beginStatement _).2 (Created.after _ _ (Database.beginStatement _).1)
    cases h2 with
    | some h2 => exact ⟨h1, .some h2⟩
    | none =>
      simp only [Database.beginStatement, Database.beginTxn]
      rcases nextTxn.checkedAdd 1 with _ | next
      · exact ⟨h1, .none⟩
      · exact ⟨h1, .some h1⟩
  | commit =>
    obtain ⟨tables, active, nextTxn, commitTs⟩ := db
    obtain ⟨committed, schemas⟩ := c
    obtain ⟨h1, h2⟩ := h
    change Database.IsSound (Database.commitStatement _).2 (Created.after _ _ (Database.commitStatement _).1)
    cases h2 with
    | some h2 =>
      simp only [Database.commitStatement, Database.commitTxn]
      rcases commitTs.checkedAdd 1 with _ | timestamp
      · exact ⟨h1, .none⟩
      · exact ⟨h2, .none⟩
    | none => exact ⟨h1, .none⟩
  | rollback =>
    obtain ⟨tables, active, nextTxn, commitTs⟩ := db
    obtain ⟨committed, schemas⟩ := c
    obtain ⟨h1, h2⟩ := h
    change Database.IsSound (Database.rollbackStatement _).2 (Created.after _ _ (Database.rollbackStatement _).1)
    cases h2 with
    | some h2 => exact ⟨h1, .none⟩
    | none => exact ⟨h1, .none⟩
  | createTable table columns => exact withTransaction_sound hop (fun _ _ => rfl) h
  | insert table columns values => exact withTransaction_sound hop (fun _ _ => rfl) h
  | select select => exact withTransaction_sound hop (fun _ _ => rfl) h
  | update table assignments filter => exact withTransaction_sound hop (fun _ _ => rfl) h
  | delete table filter => exact withTransaction_sound hop (fun _ _ => rfl) h
  | explain select => exact withTransaction_sound hop (fun _ _ => rfl) h

/-- **Scripts**: engine and database go together, and the database stays sound. -/
theorem executeAll_sound {statements : List Statement} (hnamed : ∀ s ∈ statements, s.Named)
    (hrep : e.Rep db) (h : db.IsSound c) : ∃ db', ((SqlEngine.executeAll statements).run e).2.Rep db' ∧
      db'.IsSound (c.afterAll e statements) := by
  induction statements generalizing e db c with
  | nil => exact ⟨db, hrep, h⟩
  | cons statement statements ih =>
    obtain ⟨hres, hrep'⟩ := executeStatement_simulates statement e db hrep
    have h' := executeStatement_sound (hnamed statement List.mem_cons_self) h
    rw [← hres] at h'
    rw [SqlEngine.executeAll, Created.afterAll]
    rcases hrun : (SqlEngine.executeStatement statement).run e with ⟨fault | result, e'⟩
    · rw [hrun] at h' hrep'
      rw [Act.run_bind_error hrun]
      exact ⟨_, hrep', h'⟩
    · rw [hrun] at h' hrep'
      obtain ⟨db'', hrep'', h''⟩ := ih (fun s hs => hnamed s (List.mem_cons_of_mem _ hs)) hrep' h'
      refine ⟨db'', ?_, h''⟩
      rw [Act.run_bind_ok hrun, Act.run_bind]
      rcases hrest : (SqlEngine.executeAll statements).run e' with ⟨fault | results, e''⟩
      · rw [hrest] at hrep''
        exact hrep''
      · rw [hrest] at hrep''
        exact hrep''

/-- **Every engine that can come about** represents a sound database. -/
theorem SqlEngine.Tracked.sound (h : e.Tracked c) : ∃ db, e.Rep db ∧ db.IsSound c := by
  induction h with
  | opened hopen =>
    obtain ⟨e', hopen', hrep⟩ := open_new
    rw [hopen] at hopen'
    cases hopen'
    exact ⟨_, hrep, sound_empty, .none⟩
  | @executed e c source _ ih =>
    obtain ⟨db, hrep, hsound⟩ := ih
    rcases hparse : parse source with fault | statements
    · have hrun : (SqlEngine.execute source).run e = (.error fault, e) := by
        rw [SqlEngine.execute, hparse]
        rfl
      simp only [hrun, Created.afterScript, hparse]
      exact ⟨db, hrep, hsound⟩
    · have hrun : (SqlEngine.execute source).run e = (SqlEngine.executeAll statements).run e := by
        rw [SqlEngine.execute, hparse]
        rfl
      simp only [hrun, Created.afterScript, hparse]
      exact executeAll_sound (parse_named hparse) hrep hsound
  | reopened _ hdisk hopen ih =>
    obtain ⟨db, hrep, hsound⟩ := ih
    obtain ⟨e', next, hopen', hrep'⟩ := hrep.reopen hdisk
    rw [hopen] at hopen'
    cases hopen'
    exact ⟨_, hrep', hsound.committed, .none⟩

theorem SqlEngine.Reached.sound (h : e.Reached) : ∃ db c, e.Rep db ∧ db.IsSound c := by
  obtain ⟨c, hc⟩ := h.tracked
  obtain ⟨db, hdb⟩ := hc.sound
  exact ⟨db, c, hdb⟩

end Sound

/-- The table exists, with this schema. -/
def SqlEngine.HasTable (e : SqlEngine) (table : String) (schema : Schema) : Prop :=
  ∃ text, (catalogKey table, text) ∈ e.visible ∧ decodeSchema table text = .ok schema

/-- What an engine shows is sound, and its tables are those of the catalog. -/
theorem SqlEngine.Reached.table {e : SqlEngine} (h : e.Reached) {table : String} {schema : Schema}
    (ht : e.HasTable table schema) : ∃ db schemas, e.Rep db ∧ Sound schemas db.visible ∧
      schemas table = some schema := by
  obtain ⟨db, c, hrep, hsound⟩ := h.sound
  refine ⟨db, c.visible, hrep, hsound.visible, ?_⟩
  obtain ⟨text, hmem, hdec⟩ := ht
  rw [hrep.visible, SortedMap.mem_entries, hsound.visible.catalog] at hmem
  obtain ⟨schema', hs, rfl⟩ := Option.map_eq_some_iff.1 hmem
  obtain ⟨hv, rfl⟩ := hsound.visible.valid hs
  rw [decodeSchema_encodeSchema hv] at hdec
  rw [hs, Except.ok.inj hdec]

/-! ## What is stored -/

/-- The entries hold a table with this schema: its catalog entry, and rows that fit, each under its
    key, no two of them with the same primary value. -/
structure StoredTable (entries : List (String × String)) (table : String) (schema : Schema) : Prop where
  catalog : ∃ text, (catalogKey table, text) ∈ entries ∧ decodeSchema table text = .ok schema
  rows : ∀ {key text}, (key, text) ∈ entries → startsWith key (rowPrefix table) = true →
    ∃ row i primary, decodeRow text schema = .ok row ∧ Matches schema row ∧
      schema.primaryIndex = .ok i ∧ row[i]? = some primary ∧ primary ≠ .null ∧ rowKey schema row = .ok key
  unique : ∀ {key text key' text' row row' i}, (key, text) ∈ entries → (key', text') ∈ entries →
    startsWith key (rowPrefix table) = true → startsWith key' (rowPrefix table) = true →
    decodeRow text schema = .ok row → decodeRow text' schema = .ok row' →
    schema.primaryIndex = .ok i → row[i]? = row'[i]? → (key, text) = (key', text')

section StoredTable
variable {schemas : String → Option Schema} {m : Tables} {schema : Schema} {table key : String}
  {row row' : Row} {i : ℕ}

/-- Rows with one primary value are under one key. -/
theorem rowKey_congr (hi : schema.primaryIndex = .ok i) (heq : row[i]? = row'[i]?) :
    rowKey schema row = rowKey schema row' := by
  rw [rowKey, rowKey, hi, Res.ok_bind, Res.ok_bind, heq]

theorem Sound.stored (h : Sound schemas m) (hs : schemas table = some schema) :
    StoredTable m.entries table schema := by
  obtain ⟨hv, hname⟩ := h.valid hs
  refine ⟨⟨encodeSchema schema, ?_, ?_⟩, ?_, ?_⟩
  · rw [SortedMap.mem_entries, h.catalog, hs]
    rfl
  · rw [← hname]
    exact decodeSchema_encodeSchema hv
  · intro key text hmem hpre
    obtain ⟨row, hrow, -, hdec⟩ := h.row_of_startsWith hs (SortedMap.mem_entries.1 hmem) hpre
    obtain ⟨i, column, hp⟩ := hv.primary
    obtain ⟨primary, hprimary, ⟨hne, -⟩, -⟩ := (rowKey_eq_ok hp).1 hrow.key
    exact ⟨row, i, primary, hdec, hrow.fits, hp.index, hprimary, hne, hrow.key⟩
  · intro key text key' text' row row' i hmem hmem' hpre hpre' hdec hdec' hi heq
    have hget := SortedMap.mem_entries.1 hmem
    have hget' := SortedMap.mem_entries.1 hmem'
    obtain ⟨row₁, hrow, -, hdec₁⟩ := h.row_of_startsWith hs hget hpre
    obtain ⟨row₂, hrow', -, hdec₂⟩ := h.row_of_startsWith hs hget' hpre'
    obtain rfl : row = row₁ := Except.ok.inj (hdec.symm.trans hdec₁)
    obtain rfl : row' = row₂ := Except.ok.inj (hdec'.symm.trans hdec₂)
    have hkey : (.ok key : Res String) = .ok key' := by
      rw [← hrow.key, ← hrow'.key, rowKey_congr hi heq]
    obtain rfl : key = key' := Except.ok.inj hkey
    rw [Option.some.inj (hget.symm.trans hget')]

end StoredTable

/-- **What the engine stores**, whatever scripts it has executed and however often its file was opened
    again: of every table that was created, the schema and rows under their keys; and of no other table
    a schema. -/
theorem storage_sound {e : SqlEngine} {c : Created} (h : e.Tracked c) (table : String) :
    (∀ schema, c.visible table = some schema → StoredTable e.visible table schema) ∧
    (c.visible table = none → ∀ text, (catalogKey table, text) ∉ e.visible) := by
  obtain ⟨db, hrep, hsound⟩ := h.sound
  have hvis := hsound.visible
  rw [hrep.visible]
  refine ⟨fun schema hs => hvis.stored hs, fun hs text hmem => ?_⟩
  rw [SortedMap.mem_entries, hvis.catalog, hs] at hmem
  cases hmem

/-- A table and a row that is not committed yet. -/
def itemsScript : String :=
  "create table items (id integer primary key, name text);
   begin; insert into items (name, id) values ('it''s', -7)"

/-- The table that the script creates. -/
def itemsSchema : Schema := ⟨"ITEMS", [⟨"ID", .integer, true⟩, ⟨"NAME", .text, false⟩]⟩

theorem storage_sound_items :
    ((SqlEngine.execute itemsScript).run .fresh).2.visible.map Prod.fst =
      ["__CATALOG:ITEMS", "__ROW:ITEMS:49f9ffffffffffffff"] ∧
    StoredTable ((SqlEngine.execute itemsScript).run .fresh).2.visible "ITEMS" itemsSchema :=
  ⟨by decide +kernel,
    (storage_sound (.executed itemsScript (.opened SqlEngine.open_fresh)) "ITEMS").1 itemsSchema
      (by decide +kernel)⟩

end NutDb.Sql
