/-
  Statements with and without a transaction.

  A list of statements that succeeds on its own succeeds between `BEGIN` and
  `COMMIT`, with the same results and the same tables, and between `BEGIN` and
  `ROLLBACK` it leaves no trace (`transaction_agrees`).  Only a transaction without
  statements can fail where its statements do not, when there are no transaction
  ids left.
-/
import NutDb.Sql.Runs

namespace NutDb.Sql

open Lib Mvcc

/-- The statements on tables. -/
def Statement.OnTables (s : Statement) : Prop := s ≠ .begin ∧ s ≠ .commit ∧ s ≠ .rollback

/-- Statements on tables, one after the other. -/
def executeTables : List Statement → Act Tables (List SqlResult)
  | [] => pure []
  | statement :: statements => do
    let result ← executeData statement
    let results ← executeTables statements
    return result :: results

section Database
variable {db db' : Database} {s : Statement} {statements : List Statement} {results : List SqlResult}
  {m m' : Tables}

theorem Database.executeStatement_onTables (h : s.OnTables) :
    Database.executeStatement s = Database.withTransaction (executeData s) := by
  cases s with
  | begin => exact absurd rfl h.1
  | commit => exact absurd rfl h.2.1
  | rollback => exact absurd rfl h.2.2
  | _ => rfl

/-- What a list of statements that succeeds looks like. -/
theorem executeAll_cons_eq_ok : (Database.executeAll (s :: statements)).run db = (.ok results, db') ↔
    ∃ result db₁ rest, (Database.executeStatement s).run db = (.ok result, db₁) ∧
      (Database.executeAll statements).run db₁ = (.ok rest, db') ∧ results = result :: rest := by
  rw [Database.executeAll, Act.run_bind_eq_ok]
  simp only [Act.run_bind_eq_ok]
  constructor
  · rintro ⟨result, db₁, hs, rest, db₂, hrest, h⟩
    cases h
    exact ⟨result, db₁, rest, hs, hrest, rfl⟩
  · rintro ⟨result, db₁, rest, hs, hrest, rfl⟩
    exact ⟨result, db₁, hs, rest, db', hrest, rfl⟩

/-- **Without a transaction**: the statements act on the tables, and there were transactions for them. -/
theorem executeAll_autocommit (hs : ∀ s ∈ statements, s.OnTables) (hactive : db.active = none)
    (h : (Database.executeAll statements).run db = (.ok results, db')) :
    (executeTables statements).run db.tables = (.ok results, db'.tables) ∧ db'.active = none ∧
      (statements ≠ [] → db.Ready) := by
  induction statements generalizing db results with
  | nil =>
    cases h
    exact ⟨rfl, hactive, fun h => absurd rfl h⟩
  | cons s statements ih =>
    obtain ⟨result, db₁, rest, h₁, hrest, rfl⟩ := executeAll_cons_eq_ok.1 h
    rw [Database.executeStatement_onTables (hs s List.mem_cons_self), withTransaction_eq_ok] at h₁
    obtain ⟨hready, hok, rfl⟩ := h₁
    have hvis : db.visible = db.tables := by rw [Database.visible, hactive, Option.getD_none]
    rw [hvis] at hok hrest
    have htables : (db.withVisible ((executeData s).run db.tables).2).tables =
        ((executeData s : Act Tables SqlResult).run db.tables).2 := by
      rw [Database.withVisible, hactive]
    have hactive₁ : (db.withVisible ((executeData s).run db.tables).2).active = none := by
      rw [Database.withVisible, hactive]
    obtain ⟨hrun, hend, -⟩ := ih (fun s' hs' => hs s' (List.mem_cons_of_mem _ hs')) hactive₁ hrest
    rw [htables] at hrun
    refine ⟨?_, hend, fun _ => hready⟩
    rw [executeTables, Act.run_bind_ok (Prod.ext hok rfl), Act.run_bind_ok hrun]
    rfl

/-- **In a transaction** they act on its tables. -/
theorem executeAll_active (hs : ∀ s ∈ statements, s.OnTables) (hactive : db.active = some m)
    (h : (executeTables statements).run m = (.ok results, m')) :
    (Database.executeAll statements).run db = (.ok results, { db with active := some m' }) := by
  induction statements generalizing db m results with
  | nil =>
    cases h
    rw [← hactive]
    rfl
  | cons s statements ih =>
    obtain ⟨result, m₁, hs₁, h⟩ := Act.run_bind_eq_ok.1 h
    obtain ⟨rest, m₂, hrest, h⟩ := Act.run_bind_eq_ok.1 h
    cases h
    have hrun : (Database.executeStatement s).run db = (.ok result, { db with active := some m₁ }) := by
      rw [Database.executeStatement_onTables (hs s List.mem_cons_self), withTransaction_eq_ok]
      simp only [Database.visible, hactive, Option.getD_some, hs₁, Database.withVisible,
        Database.Ready, and_true]
      exact fun h => by cases h
    refine executeAll_cons_eq_ok.2 ⟨result, _, rest, hrun, ?_, rfl⟩
    exact ih (fun s' hs' => hs s' (List.mem_cons_of_mem _ hs')) rfl hrest

/-- A list of statements, and another one behind it. -/
theorem executeAll_append {statements' : List Statement} {results' : List SqlResult} {db₁ : Database}
    (h : (Database.executeAll statements).run db = (.ok results, db₁))
    (h' : (Database.executeAll statements').run db₁ = (.ok results', db')) :
    (Database.executeAll (statements ++ statements')).run db = (.ok (results ++ results'), db') := by
  induction statements generalizing db results with
  | nil =>
    cases h
    exact h'
  | cons s statements ih =>
    obtain ⟨result, db₂, rest, h₂, hrest, rfl⟩ := executeAll_cons_eq_ok.1 h
    exact executeAll_cons_eq_ok.2 ⟨result, db₂, rest ++ results', h₂, ih hrest, rfl⟩

theorem Database.begin_run (hactive : db.active = none) {next : U64}
    (hnext : db.nextTxn.checkedAdd 1 = some next) : (Database.executeStatement .begin).run db =
      (.ok .begun, { db with active := some db.tables, nextTxn := next }) := by
  change Database.beginStatement db = _
  simp only [Database.beginStatement, hactive, Database.beginTxn, hnext]

theorem Database.begin_exhausted (hactive : db.active = none) (hnext : db.nextTxn.checkedAdd 1 = none) :
    (Database.executeStatement .begin).run db =
      (.error (.io ⟨.invalidData, "mvcc: transaction id exhausted"⟩), db) := by
  change Database.beginStatement db = _
  simp only [Database.beginStatement, hactive, Database.beginTxn, hnext]
  rfl

/-- A transaction without statements uses an id. -/
theorem Database.executeAll_begin_rollback (hactive : db.active = none) {next : U64}
    (hnext : db.nextTxn.checkedAdd 1 = some next) :
    ((Database.executeAll [.begin, .rollback]).run db).2 = ⟨db.tables, none, next, db.commitTs⟩ := by
  have hbegin := Database.begin_run hactive hnext
  rw [executeAll_cons_eq_ok.2 ⟨_, _, [.rolledBack], hbegin, rfl, rfl⟩]

/-- **`BEGIN`, the statements, and `COMMIT`.** -/
theorem executeAll_transaction (hs : ∀ s ∈ statements, s.OnTables) (hactive : db.active = none)
    (hready : statements = [] → db.Ready)
    (h : (Database.executeAll statements).run db = (.ok results, db')) :
    ∃ db'', (Database.executeAll (.begin :: statements ++ [.commit])).run db =
        (.ok (.begun :: results ++ [.committed]), db'') ∧ db''.visible = db'.visible := by
  obtain ⟨hrun, hend, hready'⟩ := executeAll_autocommit hs hactive h
  obtain ⟨hnext, hts⟩ : (db.nextTxn.checkedAdd 1).isSome = true ∧ (db.commitTs.checkedAdd 1).isSome = true := by
    by_cases hnil : statements = []
    · exact hready hnil hactive
    · exact hready' hnil hactive
  obtain ⟨next, hnext⟩ := Option.isSome_iff_exists.1 hnext
  obtain ⟨ts, hts⟩ := Option.isSome_iff_exists.1 hts
  have hbegin := Database.begin_run hactive hnext
  have hcommit : (Database.executeAll [.commit]).run ⟨db.tables, some db'.tables, next, db.commitTs⟩ =
      (.ok [.committed], ⟨db'.tables, none, next, ts⟩) := by
    refine executeAll_cons_eq_ok.2 ⟨.committed, _, [], ?_, rfl, rfl⟩
    change Database.commitStatement ⟨db.tables, some db'.tables, next, db.commitTs⟩ = _
    simp only [Database.commitStatement, Database.commitTxn, hts]
  have hopened : (Database.mk db.tables (some db.tables) next db.commitTs).active = some db.tables := rfl
  have hmiddle := executeAll_active hs hopened hrun
  refine ⟨_, executeAll_cons_eq_ok.2 ⟨_, _, _, hbegin, executeAll_append hmiddle hcommit, rfl⟩, ?_⟩
  rw [Database.visible, Database.visible, hend]

/-- The statements that follow cannot change the committed tables: there is an open transaction, or
    there can be none. -/
structure Aside (m : Tables) (db : Database) : Prop where
  tables : db.tables = m
  exhausted : db.active = none → db.nextTxn.checkedAdd 1 = none

theorem Aside.begin (hactive : db.active = none) :
    Aside db.tables ((Database.executeStatement .begin).run db).2 := by
  rcases hn : db.nextTxn.checkedAdd 1 with _ | next
  · rw [Database.begin_exhausted hactive hn]
    exact ⟨rfl, fun _ => hn⟩
  · rw [Database.begin_run hactive hn]
    exact ⟨rfl, fun h => (nomatch h)⟩

theorem Aside.onTables (h : Aside m db) (hs : s.OnTables) :
    Aside m ((Database.executeStatement s).run db).2 := by
  obtain ⟨tables, active, nextTxn, commitTs⟩ := db
  obtain ⟨rfl, hexhausted⟩ := h
  rw [Database.executeStatement_onTables hs]
  cases active with
  | some m => exact ⟨rfl, fun h => (nomatch h)⟩
  | none =>
    have hn := hexhausted rfl
    simp only [Act.run, Database.withTransaction, Database.beginTxn] at hn ⊢
    rw [hn]
    exact ⟨rfl, fun _ => hn⟩

/-- `ROLLBACK` gives the committed tables. -/
theorem Aside.rollback (h : Aside m db) :
    ((Database.executeStatement .rollback).run db).2.visible = m := by
  obtain ⟨tables, active, nextTxn, commitTs⟩ := db
  obtain ⟨rfl, -⟩ := h
  cases active <;> rfl

end Database

/-! ## The engine -/

/-- Statements one after the other, whether or not they fail. -/
def SqlEngine.executeEach (statements : List Statement) (e : SqlEngine) : SqlEngine :=
  statements.foldl (fun e s => ((SqlEngine.executeStatement s).run e).2) e

theorem executeEach_aside {e : SqlEngine} {db : Database} {m : Tables} {statements : List Statement}
    (hs : ∀ s ∈ statements, s.OnTables) (hrep : e.Rep db) (h : Aside m db) :
    ∃ db', (SqlEngine.executeEach statements e).Rep db' ∧ Aside m db' := by
  induction statements generalizing e db with
  | nil => exact ⟨db, hrep, h⟩
  | cons s statements ih =>
    exact ih (fun s' hs' => hs s' (List.mem_cons_of_mem _ hs')) (executeStatement_simulates s e db hrep).2
      (h.onTables (hs s List.mem_cons_self))

theorem SqlEngine.Rep.active_eq_none {e : SqlEngine} {db : Database} (h : e.Rep db) :
    e.active = none ↔ db.active = none := by
  cases h with
  | idle hactive _ _ => simp [hactive]
  | busy hactive _ _ => simp [hactive]

/-- **Statements with and without a transaction.**  From any engine without an open transaction: if the
    statements succeed one by one, they succeed between `BEGIN` and `COMMIT`, with the same results and
    the same tables; and whether or not they succeed, between `BEGIN` and `ROLLBACK` they change
    nothing.  A transaction without statements needs an id and a commit timestamp. -/
theorem transaction_agrees {e : SqlEngine} (h : e.Reached) (hactive : e.active = none)
    {statements : List Statement} (hs : ∀ s ∈ statements, s.OnTables) :
    (∀ results, (statements = [] → e.Ready) →
      ((SqlEngine.executeAll statements).run e).1 = .ok results →
      ((SqlEngine.executeAll (.begin :: statements ++ [.commit])).run e).1 =
        .ok (.begun :: results ++ [.committed]) ∧
      ((SqlEngine.executeAll (.begin :: statements ++ [.commit])).run e).2.visible =
        ((SqlEngine.executeAll statements).run e).2.visible) ∧
    (SqlEngine.executeEach (.begin :: statements ++ [.rollback]) e).visible = e.visible := by
  obtain ⟨db, hrep⟩ := h.rep
  have hidle := hrep.active_eq_none.1 hactive
  constructor
  · intro results hready hok
    obtain ⟨hres, hrep'⟩ := executeAll_simulates statements e db hrep
    obtain ⟨hres'', hrep''⟩ := executeAll_simulates (.begin :: statements ++ [.commit]) e db hrep
    rw [hok] at hres
    obtain ⟨db'', hrun, hvis⟩ := executeAll_transaction hs hidle (fun hnil => hrep.ready.1 (hready hnil))
      (Prod.ext hres.symm rfl)
    rw [hrun] at hres'' hrep''
    refine ⟨hres'', ?_⟩
    rw [hrep''.visible, hrep'.visible, hvis]
  · obtain ⟨db', hrep', haside⟩ := executeEach_aside hs (executeStatement_simulates .begin e db hrep).2
      (Aside.begin hidle)
    have hfold : SqlEngine.executeEach (.begin :: statements ++ [.rollback]) e =
        ((SqlEngine.executeStatement .rollback).run (SqlEngine.executeEach statements
          ((SqlEngine.executeStatement .begin).run e).2)).2 := by
      rw [SqlEngine.executeEach, List.cons_append, List.foldl_cons, List.foldl_append]
      rfl
    rw [hfold, (executeStatement_simulates .rollback _ _ hrep').2.visible, haside.rollback, hrep.visible,
      Database.visible, hidle]
    rfl

/-- `create table items (id integer primary key, name text); insert into items (id) values (1)`. -/
def itemsStatements : List Statement :=
  [.createTable "ITEMS" [⟨"ID", .integer, true⟩, ⟨"NAME", .text, false⟩],
    .insert "ITEMS" ["ID"] [.integer ⟨1, by decide⟩]]

theorem transaction_agrees_items :
    ((SqlEngine.executeAll (.begin :: itemsStatements ++ [.commit])).run .fresh).1 =
      .ok [.begun, .affected 0, .affected 1, .committed] ∧
    (SqlEngine.executeEach (.begin :: itemsStatements ++ [.rollback]) .fresh).visible = [] := by
  have hs : ∀ s ∈ itemsStatements, s.OnTables := by simp [itemsStatements, Statement.OnTables]
  obtain ⟨hcommit, hrollback⟩ := transaction_agrees (.opened SqlEngine.open_fresh) rfl hs
  exact ⟨(hcommit [.affected 0, .affected 1] (fun h => (nomatch h)) (by decide +kernel)).1, hrollback⟩

/-- Transactions without statements use up the ids. -/
theorem exists_reached_nextTxn (n : ℕ) (h : n + 1 < 2 ^ 64) :
    ∃ e : SqlEngine, e.Reached ∧ e.Rep ⟨.empty, none, ⟨n + 1, h⟩, 0⟩ := by
  induction n with
  | zero =>
    obtain ⟨e, hopen, hrep⟩ := open_new
    exact ⟨e, .opened hopen, hrep⟩
  | succ n ih =>
    obtain ⟨e, hreached, hrep⟩ := ih (by omega)
    have hparse : parse "begin; rollback" = .ok [.begin, .rollback] := by decide +kernel
    have hrun : (SqlEngine.execute "begin; rollback").run e =
        (SqlEngine.executeAll [.begin, .rollback]).run e := by
      rw [SqlEngine.execute, hparse]
      rfl
    refine ⟨_, .executed "begin; rollback" hreached, ?_⟩
    rw [hrun]
    have hrep' := (executeAll_simulates [.begin, .rollback] e _ hrep).2
    have hnext : U64.checkedAdd ⟨n + 1, by omega⟩ 1 = some ⟨n + 1 + 1, h⟩ := U64.checkedAdd_eq_some.2 rfl
    rwa [Database.executeAll_begin_rollback rfl hnext] at hrep'

/-- When the ids are used up, no statements succeed, but `BEGIN` fails. -/
theorem transaction_exhausted : ∃ e : SqlEngine, e.Reached ∧ e.active = none ∧
    ((SqlEngine.executeAll []).run e).1 = .ok [] ∧
    ((SqlEngine.executeAll (.begin :: [] ++ [.commit])).run e).1 =
      Mvcc.invalid "mvcc: transaction id exhausted" := by
  obtain ⟨e, hreached, hrep⟩ := exists_reached_nextTxn (2 ^ 64 - 2) (by norm_num)
  refine ⟨e, hreached, hrep.active_eq_none.2 rfl, rfl, ?_⟩
  rw [(executeAll_simulates _ e _ hrep).1]
  have hnone : U64.checkedAdd ⟨2 ^ 64 - 2 + 1, by norm_num⟩ 1 = none := by decide +kernel
  rw [List.cons_append, List.nil_append, Database.executeAll,
    Act.run_bind_error (Database.begin_exhausted rfl hnone)]
  rfl

end NutDb.Sql
