/-
  What the SQL layer stores.

  `Sound schemas m`: every entry of the tables `m` is the catalog entry of a
  table, with its schema, or a row of one, under the key that belongs to the row.
  Every statement keeps it, whether it succeeds or fails, and so does everything
  that can happen to an engine (`storage_sound`).
-/
import NutDb.Sql.Database
import NutDb.Sql.Names

namespace NutDb.Sql

open Lib Mvcc

/-! ## Keys -/

theorem catalogKey_injective : Function.Injective catalogKey := by
  intro s t h
  have hlist := congrArg String.toList h
  simp only [catalogKey, String.toList_append, List.append_cancel_left_eq] at hlist
  exact String.toList_inj.1 hlist

/-- A catalog entry is no row. -/
theorem not_startsWith_catalogKey (table table' : String) :
    startsWith (catalogKey table) (rowPrefix table') = false := by
  rw [Bool.eq_false_iff, Ne, startsWith_iff]
  simp [catalogKey, rowPrefix]

theorem eq_of_separated {a b h : List Char} {c : Char} (ha : c ∉ a) (hb : c ∉ b)
    (hpre : a ++ [c] <+: b ++ c :: h) : a = b := by
  induction a generalizing b with
  | nil =>
    cases b with
    | nil => rfl
    | cons d b =>
      obtain rfl := (List.cons_prefix_cons.1 hpre).1
      exact absurd List.mem_cons_self hb
  | cons d a ih =>
    cases b with
    | nil =>
      obtain rfl := (List.cons_prefix_cons.1 hpre).1
      exact absurd List.mem_cons_self ha
    | cons d' b =>
      obtain ⟨rfl, hpre'⟩ := List.cons_prefix_cons.1 hpre
      rw [ih (fun hc => ha (List.mem_cons_of_mem _ hc)) (fun hc => hb (List.mem_cons_of_mem _ hc)) hpre']

/-- The keys of rows of different tables have different prefixes. -/
theorem startsWith_rowPrefix {table table' rest : String} (h : IsName table) (h' : IsName table') :
    startsWith (rowPrefix table ++ rest) (rowPrefix table') = true ↔ table' = table := by
  rw [startsWith_iff]
  have hsplit : (rowPrefix table ++ rest).toList =
      "__ROW:".toList ++ (table.toList ++ ':' :: rest.toList) := by
    simp [rowPrefix]
  have hsplit' : (rowPrefix table').toList = "__ROW:".toList ++ (table'.toList ++ [':']) := by
    simp [rowPrefix]
  rw [hsplit, hsplit', List.prefix_append_right_inj]
  constructor
  · intro hpre
    exact String.toList_inj.1 (eq_of_separated (h'.notMem (by decide)) (h.notMem (by decide)) hpre)
  · rintro rfl
    exact ⟨rest.toList, by simp⟩

/-! ## Rows and their keys -/

section Schema
variable {schema : Schema} {i : ℕ} {column : ColumnDef} {row : Row} {key : String} {value : Value}

/-- The column of the primary key. -/
structure Schema.Primary (schema : Schema) (i : ℕ) (column : ColumnDef) : Prop where
  index : schema.primaryIndex = .ok i
  column : schema.columns[i]? = some column

theorem Schema.Valid.primary (h : schema.Valid) : ∃ i column, schema.Primary i column := by
  obtain ⟨-, hone, -⟩ := Schema.validate_eq_ok.1 h.validated
  rcases hfind : schema.columns.findIdx? ColumnDef.primaryKey with _ | i
  · have hnone : schema.columns.filter ColumnDef.primaryKey = [] := by
      refine List.filter_eq_nil_iff.2 fun column hcolumn => ?_
      simpa using List.findIdx?_eq_none_iff.1 hfind column hcolumn
    rw [hnone] at hone
    cases hone
  · obtain ⟨hlt, -⟩ := List.findIdx?_eq_some_iff_getElem.1 hfind
    exact ⟨i, schema.columns[i], by rw [Schema.primaryIndex, hfind], List.getElem?_eq_getElem hlt⟩

/-- The value can be a primary key. -/
def IsPrimary (column : ColumnDef) (value : Value) : Prop :=
  value ≠ .null ∧ value.hasType column.dataType = true

theorem rowKeyForPrimary_eq_ok (hp : schema.Primary i column) : rowKeyForPrimary schema value = .ok key ↔
    IsPrimary column value ∧ key = rowPrefix schema.name ++ hex (encodeValue value) := by
  unfold rowKeyForPrimary IsPrimary
  split_ifs with hnull
  · simp [input, Res.fail, hnull]
  · rw [hp.index, Res.ok_bind, Res.get_of_getElem? hp.column, Res.ok_bind]
    unfold checkType
    split_ifs with htype
    · simp [hnull, htype, eq_comm]
    · simp [htype, input, Res.fail]

theorem rowKey_eq_ok (hp : schema.Primary i column) : rowKey schema row = .ok key ↔
    ∃ value, row[i]? = some value ∧ IsPrimary column value ∧
      key = rowPrefix schema.name ++ hex (encodeValue value) := by
  rw [rowKey, hp.index, Res.ok_bind]
  rcases hrow : row[i]? with _ | value
  · simp [Res.ofOption, Res.fail]
  · rw [Res.ofOption_some, Res.ok_bind]
    by_cases hnull : value = .null
    · rw [if_pos hnull]
      simp [input, Res.fail, hnull, IsPrimary]
    · rw [if_neg hnull, rowKeyForPrimary_eq_ok hp]
      simp

theorem primary_of_key {pre : String} {v w : Value}
    (h : pre ++ hex (encodeValue v) = pre ++ hex (encodeValue w)) : v = w := by
  have hlist := congrArg String.toList h
  simp only [String.toList_append, List.append_cancel_left_eq] at hlist
  exact encodeValue_injective (hex_injective (String.toList_inj.1 hlist))

/-- Rows under one key have one primary value. -/
theorem primary_of_rowKey (hp : schema.Primary i column) {row' : Row} (h : rowKey schema row = .ok key)
    (h' : rowKey schema row' = .ok key) : row[i]? = row'[i]? := by
  obtain ⟨value, hrow, -, hkey⟩ := (rowKey_eq_ok hp).1 h
  obtain ⟨value', hrow', -, hkey'⟩ := (rowKey_eq_ok hp).1 h'
  rw [hrow, hrow', primary_of_key (hkey.symm.trans hkey')]

/-- A row of the table, under its key. -/
structure IsRow (schema : Schema) (key : String) (row : Row) : Prop where
  fits : Matches schema row
  key : rowKey schema row = .ok key

theorem IsRow.startsWith (h : IsRow schema key row) (hv : schema.Valid) {table : String}
    (ht : IsName table) : startsWith key (rowPrefix table) = true ↔ table = schema.name := by
  obtain ⟨i, column, hp⟩ := hv.primary
  obtain ⟨value, -, -, rfl⟩ := (rowKey_eq_ok hp).1 h.key
  exact startsWith_rowPrefix hv.name ht

theorem IsRow.ne_catalogKey (h : IsRow schema key row) (hv : schema.Valid) (table : String) :
    key ≠ catalogKey table := by
  rintro rfl
  have hpre := (h.startsWith hv hv.name).2 rfl
  rw [not_startsWith_catalogKey] at hpre
  cases hpre

theorem matches_set (h : Matches schema row) (hcol : schema.columns[i]? = some column)
    (hval : value.hasType column.dataType = true) : Matches schema (row.set i value) := by
  unfold Matches at h ⊢
  generalize schema.columns = columns at h hcol
  induction h generalizing i with
  | nil => cases hcol
  | @cons v c row columns hvc hrest ih =>
    cases i with
    | zero =>
      obtain rfl : c = column := Option.some.inj hcol
      exact .cons hval hrest
    | succ i => exact .cons hvc (ih hcol)

theorem matches_replicate_null (schema : Schema) :
    Matches schema (List.replicate schema.columns.length .null) := by
  unfold Matches
  induction schema.columns with
  | nil => exact .nil
  | cons column columns ih => exact .cons rfl ih

/-- One assignment to a column of the schema. -/
theorem assign_matches {definition : ColumnDef} {row' : Row} {i : ℕ} {u : Unit}
    (h : Matches schema row) (hdef : Res.get schema.columns i = .ok definition)
    (htype : checkType value definition.dataType = .ok u) (hset : Res.setAt row i value = .ok row') :
    Matches schema row' := by
  unfold Res.setAt at hset
  split_ifs at hset
  cases hset
  exact matches_set h (Res.get_eq_ok.1 hdef) (checkType_eq_ok.1 htype)

theorem assignInserted_matches {fields : List (String × Value)} {assigned : List Bool} {row' : Row}
    (h : Matches schema row) (hrun : assignInserted schema fields row assigned = .ok row') :
    Matches schema row' := by
  induction fields generalizing row assigned with
  | nil =>
    cases hrun
    exact h
  | cons field fields ih =>
    obtain ⟨column, value⟩ := field
    rw [assignInserted] at hrun
    obtain ⟨i, -, hrun⟩ := Res.bind_eq_ok.1 hrun
    obtain ⟨used, -, hrun⟩ := Res.bind_eq_ok.1 hrun
    split_ifs at hrun
    · cases hrun
    · obtain ⟨definition, hdef, hrun⟩ := Res.bind_eq_ok.1 hrun
      obtain ⟨u, htype, hrun⟩ := Res.bind_eq_ok.1 hrun
      obtain ⟨row₁, hset, hrun⟩ := Res.bind_eq_ok.1 hrun
      obtain ⟨assigned₁, -, hrun⟩ := Res.bind_eq_ok.1 hrun
      exact ih (assign_matches h hdef htype hset) hrun

theorem assignRow_matches {assignments : List (String × Value)} {row' : Row} (h : Matches schema row)
    (hrun : assignRow schema assignments row = .ok row') : Matches schema row' := by
  induction assignments generalizing row with
  | nil =>
    cases hrun
    exact h
  | cons assignment assignments ih =>
    obtain ⟨column, value⟩ := assignment
    rw [assignRow] at hrun
    obtain ⟨i, -, hrun⟩ := Res.bind_eq_ok.1 hrun
    obtain ⟨definition, hdef, hrun⟩ := Res.bind_eq_ok.1 hrun
    obtain ⟨u, htype, hrun⟩ := Res.bind_eq_ok.1 hrun
    obtain ⟨row₁, hset, hrun⟩ := Res.bind_eq_ok.1 hrun
    exact ih (assign_matches h hdef htype hset) hrun

end Schema

/-! ## Sound tables -/

/-- Every entry is a schema or a row, and the schemas are these. -/
structure Sound (schemas : String → Option Schema) (m : Tables) : Prop where
  valid : ∀ {table schema}, schemas table = some schema → schema.Valid ∧ schema.name = table
  catalog : ∀ table, m.get (catalogKey table) = (schemas table).map encodeSchema
  entry : ∀ {key text}, m.get key = some text → (∃ table, key = catalogKey table) ∨
    ∃ table schema row, schemas table = some schema ∧ IsRow schema key row ∧ text = encodeRow row
  logged : ∀ {key text}, m.get key = some text → (TxnRecord.set 0 key text).Loggable

/-- A record with a shorter content is logged, too. -/
theorem loggable_delete {key text : String} (h : (TxnRecord.set 0 key text).Loggable) :
    (TxnRecord.delete 0 key).Loggable := by
  obtain ⟨b, hb, hfit⟩ := h
  obtain ⟨k, hk, hb⟩ := Res.bind_eq_ok.1 hb
  obtain ⟨v, hv, hb⟩ := Res.bind_eq_ok.1 hb
  cases hb
  refine ⟨_, by rw [TxnRecord.encode, hk]; rfl, ?_⟩
  simp only [Wal.Fits, List.length_cons, List.length_append] at hfit ⊢
  omega

section Sound
variable {schemas : String → Option Schema} {m : Tables} {schema : Schema} {table key text : String}
  {row : Row}

theorem sound_empty : Sound (fun _ => none) .empty :=
  ⟨fun h => (nomatch h), fun _ => rfl, fun h => (nomatch h), fun h => (nomatch h)⟩

theorem Sound.insertRow (h : Sound schemas m) (hs : schemas table = some schema)
    (hrow : IsRow schema key row) (hl : (TxnRecord.set 0 key (encodeRow row)).Loggable) :
    Sound schemas (m.insert key (encodeRow row)) := by
  refine ⟨h.valid, fun table' => ?_, fun {k t} hk => ?_, fun {k t} hk => ?_⟩
  · rw [SortedMap.get_insert, if_neg (hrow.ne_catalogKey (h.valid hs).1 table').symm, h.catalog]
  · rw [SortedMap.get_insert] at hk
    split_ifs at hk with heq
    · cases hk
      subst heq
      exact Or.inr ⟨table, schema, row, hs, hrow, rfl⟩
    · exact h.entry hk
  · rw [SortedMap.get_insert] at hk
    split_ifs at hk with heq
    · cases hk
      subst heq
      exact hl
    · exact h.logged hk

theorem Sound.eraseRow (h : Sound schemas m) (hs : schemas table = some schema)
    (hrow : IsRow schema key row) : Sound schemas (m.erase key) := by
  have hget : ∀ {k t}, (m.erase key).get k = some t → m.get k = some t := by
    intro k t hk
    rw [SortedMap.get_erase] at hk
    split_ifs at hk
    exact hk
  refine ⟨h.valid, fun table' => ?_, fun hk => h.entry (hget hk), fun hk => h.logged (hget hk)⟩
  rw [SortedMap.get_erase, if_neg (hrow.ne_catalogKey (h.valid hs).1 table').symm, h.catalog]

theorem Sound.create (h : Sound schemas m) (hs : schemas schema.name = none) (hv : schema.Valid)
    (hl : (TxnRecord.set 0 (catalogKey schema.name) (encodeSchema schema)).Loggable) :
    Sound (Function.update schemas schema.name (some schema))
      (m.insert (catalogKey schema.name) (encodeSchema schema)) := by
  have hold : ∀ {table schema'}, schemas table = some schema' →
      Function.update schemas schema.name (some schema) table = some schema' := by
    intro table schema' ht
    rw [Function.update_of_ne, ht]
    rintro rfl
    rw [hs] at ht
    cases ht
  refine ⟨fun {table schema'} ht => ?_, fun table => ?_, fun {k t} hk => ?_, fun {k t} hk => ?_⟩
  · rw [Function.update_apply] at ht
    split_ifs at ht with heq
    · cases ht
      exact ⟨hv, heq.symm⟩
    · exact h.valid ht
  · rw [SortedMap.get_insert, Function.update_apply]
    by_cases heq : table = schema.name
    · rw [if_pos (congrArg catalogKey heq), if_pos heq]
      rfl
    · rw [if_neg (fun hk => heq (catalogKey_injective hk)), if_neg heq, h.catalog]
  · rw [SortedMap.get_insert] at hk
    split_ifs at hk with heq
    · exact Or.inl ⟨_, heq⟩
    · rcases h.entry hk with hcat | ⟨table, schema', row, ht, hrow, htext⟩
      · exact Or.inl hcat
      · exact Or.inr ⟨table, schema', row, hold ht, hrow, htext⟩
  · rw [SortedMap.get_insert] at hk
    split_ifs at hk with heq
    · cases hk
      subst heq
      exact hl
    · exact h.logged hk

/-! ## Reading sound tables -/

theorem loadSchema_run (h : Sound schemas m) (table : String) :
    (loadSchema table : Act Tables Schema).run m =
      ((schemas table).elim (input ("sql: unknown table '" ++ table ++ "'")) .ok, m) := by
  have hget : (Txn.get (catalogKey table) : Act Tables (Option String)).run m =
      (.ok (m.get (catalogKey table)), m) := rfl
  rw [loadSchema, Act.run_bind_ok hget, h.catalog]
  rcases hs : schemas table with _ | schema
  · rfl
  · obtain ⟨hv, rfl⟩ := h.valid hs
    simp only [Option.map_some, decodeSchema_encodeSchema hv, Act.run_lift, Option.elim_some]

/-- The rows of a table, in the order of their keys. -/
def rowsOf (m : Tables) (schema : Schema) : List (String × Row) :=
  (m.entries.filter fun e => startsWith e.1 (rowPrefix schema.name)).filterMap fun e =>
    match decodeRow e.2 schema with
    | .ok row => some (e.1, row)
    | .error _ => none

/-- The entries under the prefix of a table are its rows. -/
theorem Sound.row_of_startsWith (h : Sound schemas m) (hs : schemas table = some schema)
    (hkey : m.get key = some text) (hpre : startsWith key (rowPrefix table) = true) :
    ∃ row, IsRow schema key row ∧ text = encodeRow row ∧ decodeRow text schema = .ok row := by
  obtain ⟨hv, rfl⟩ := h.valid hs
  rcases h.entry hkey with ⟨table', rfl⟩ | ⟨table', schema', row, hs', hrow, rfl⟩
  · rw [not_startsWith_catalogKey] at hpre
    cases hpre
  · obtain ⟨hv', rfl⟩ := h.valid hs'
    have heq := (hrow.startsWith hv' hv.name).1 hpre
    rw [← heq, hs] at hs'
    cases hs'
    have hne := (Schema.validate_eq_ok.1 hv.validated).1
    exact ⟨row, hrow, rfl, decodeRow_encodeRow hrow.fits hne⟩

theorem mapM_decode {entries : List (String × String)}
    (h : ∀ e ∈ entries, ∃ row, decodeRow e.2 schema = .ok row) :
    entries.mapM (fun e : String × String => do
      let row ← decodeRow e.2 schema
      return (e.1, row)) = (.ok (entries.filterMap fun e =>
        match decodeRow e.2 schema with
        | .ok row => some (e.1, row)
        | .error _ => none) : Res (List (String × Row))) := by
  induction entries with
  | nil => rfl
  | cons e entries ih =>
    obtain ⟨row, hrow⟩ := h e List.mem_cons_self
    rw [List.mapM_cons, ih fun e' he' => h e' (List.mem_cons_of_mem _ he'), List.filterMap_cons]
    simp only [hrow]
    rfl

/-- **All rows of a table** are read. -/
theorem allRows_run (h : Sound schemas m) (hs : schemas table = some schema) :
    (allRows schema : Act Tables (List (String × Row))).run m = (.ok (rowsOf m schema), m) := by
  obtain ⟨hv, rfl⟩ := h.valid hs
  have hscan : (Txn.scanPrefix (rowPrefix schema.name) : Act Tables (List (String × String))).run m =
      (.ok (m.entries.filter fun e => startsWith e.1 (rowPrefix schema.name)), m) := rfl
  rw [allRows, Act.run_bind_ok hscan, Act.run_lift, rowsOf, mapM_decode]
  intro e he
  obtain ⟨hmem, hpre⟩ := List.mem_filter.1 he
  obtain ⟨row, -, -, hdec⟩ := h.row_of_startsWith hs (SortedMap.mem_entries.1 hmem) hpre
  exact ⟨row, hdec⟩

theorem mem_rowsOf (h : Sound schemas m) (hs : schemas table = some schema) :
    (key, row) ∈ rowsOf m schema ↔ IsRow schema key row ∧ m.get key = some (encodeRow row) := by
  obtain ⟨hv, rfl⟩ := h.valid hs
  rw [rowsOf, List.mem_filterMap]
  constructor
  · rintro ⟨⟨k, text⟩, hmem, hdec⟩
    obtain ⟨hmem, hpre⟩ := List.mem_filter.1 hmem
    have hget := SortedMap.mem_entries.1 hmem
    obtain ⟨row', hrow, rfl, hdec'⟩ := h.row_of_startsWith hs hget hpre
    simp only [hdec', Option.some.injEq, Prod.mk.injEq] at hdec
    obtain ⟨rfl, rfl⟩ := hdec
    exact ⟨hrow, hget⟩
  · rintro ⟨hrow, hget⟩
    have hne := (Schema.validate_eq_ok.1 hv.validated).1
    refine ⟨(key, encodeRow row), List.mem_filter.2 ⟨SortedMap.mem_entries.2 hget, ?_⟩, ?_⟩
    · exact (hrow.startsWith hv hv.name).2 rfl
    · simp only [decodeRow_encodeRow hrow.fits hne]

theorem sortedKeys_rowsOf (m : Tables) (schema : Schema) : SortedKeys (rowsOf m schema) := by
  have hsorted : SortedKeys (m.entries.filter fun e => startsWith e.1 (rowPrefix schema.name)) :=
    List.Pairwise.filter _ m.sorted
  refine List.Pairwise.filterMap _ (fun e e' hlt r hr r' hr' => ?_) hsorted
  have hfst : ∀ {e : String × String} {r : String × Row}, (match decodeRow e.2 schema with
      | .ok row => some (e.1, row)
      | .error _ => none) = some r → r.1 = e.1 := by
    intro e r hr
    split at hr
    · cases hr
      rfl
    · cases hr
  rw [hfst hr, hfst hr']
  exact hlt

/-! ## Statements -/

/-- What `CREATE TABLE` does. -/
theorem createTable_cases (h : Sound schemas m) (table : String) (columns : List ColumnDef) :
    (∃ fault, (createTable table columns : Act Tables SqlResult).run m = (.error fault, m)) ∨
    schemas table = none ∧ Schema.validate ⟨table, columns⟩ = .ok () ∧
      (TxnRecord.set 0 (catalogKey table) (encodeSchema ⟨table, columns⟩)).Loggable ∧
      (createTable table columns : Act Tables SqlResult).run m =
        (.ok (.affected 0), m.insert (catalogKey table) (encodeSchema ⟨table, columns⟩)) := by
  unfold createTable
  rcases hval : Schema.validate ⟨table, columns⟩ with fault | u
  · exact Or.inl ⟨fault, rfl⟩
  · rw [Act.run_bind_ok (Act.run_lift (.ok u) m), Act.run_bind_ok (get_run m _), h.catalog]
    rcases hs : schemas table with _ | schema
    · rw [Option.map_none, if_neg (by simp)]
      rcases hr : refusal (.set 0 (catalogKey table) (encodeSchema ⟨table, columns⟩)) with _ | fault
      · refine Or.inr ⟨rfl, rfl, refusal_eq_none.1 hr, ?_⟩
        have hsave : (saveSchema ⟨table, columns⟩ : Act Tables Unit).run m =
            (.ok (), m.insert (catalogKey table) (encodeSchema ⟨table, columns⟩)) := by
          rw [saveSchema, hval, Act.run_bind_ok (Act.run_lift (.ok u) m), set_run, hr]
          rfl
        rw [Act.run_bind_ok hsave]
        rfl
      · refine Or.inl ⟨fault, ?_⟩
        have hsave : (saveSchema ⟨table, columns⟩ : Act Tables Unit).run m = (.error fault, m) := by
          rw [saveSchema, hval, Act.run_bind_ok (Act.run_lift (.ok u) m), set_run, hr]
          rfl
        rw [Act.run_bind_error hsave]
    · rw [Option.map_some, if_pos Option.isSome_some]
      exact Or.inl ⟨_, rfl⟩

/-- What `INSERT` does. -/
theorem insert_cases (h : Sound schemas m) (table : String) (columns : List String)
    (values : List Value) :
    (∃ fault, (insert table columns values : Act Tables SqlResult).run m = (.error fault, m)) ∨
    ∃ schema key row, schemas table = some schema ∧ IsRow schema key row ∧ m.get key = none ∧
      (TxnRecord.set 0 key (encodeRow row)).Loggable ∧
      (insert table columns values : Act Tables SqlResult).run m =
        (.ok (.affected 1), m.insert key (encodeRow row)) := by
  have hload := loadSchema_run h table
  unfold insert
  rcases hs : schemas table with _ | schema
  · rw [hs] at hload
    exact Or.inl ⟨_, Act.run_bind_error hload⟩
  rw [hs] at hload
  rw [Act.run_bind_ok hload]
  split_ifs with hlen
  · exact Or.inl ⟨_, rfl⟩
  rcases hassign : assignInserted schema (columns.zip values)
      (List.replicate schema.columns.length .null) (List.replicate schema.columns.length false) with fault | row
  · exact Or.inl ⟨fault, rfl⟩
  rw [Act.run_bind_ok (Act.run_lift (.ok row) m)]
  rcases hkey : rowKey schema row with fault | key
  · exact Or.inl ⟨fault, rfl⟩
  rw [Act.run_bind_ok (Act.run_lift (.ok key) m), Act.run_bind_ok (get_run m key)]
  rcases hget : m.get key with _ | text
  · rw [if_neg (by simp)]
    rcases hr : refusal (.set 0 key (encodeRow row)) with _ | fault
    · refine Or.inr ⟨schema, key, row, rfl, ⟨?_, hkey⟩, hget, refusal_eq_none.1 hr, ?_⟩
      · exact assignInserted_matches (matches_replicate_null schema) hassign
      · rw [Act.run_bind_ok (by rw [set_run, hr]; rfl)]
        rfl
    · exact Or.inl ⟨fault, Act.run_bind_error (by rw [set_run, hr]; rfl)⟩
  · rw [if_pos Option.isSome_some]
    exact Or.inl ⟨_, rfl⟩

/-- What `UPDATE` does with a matching row. -/
inductive Updated (schema : Schema) (assignments : List (String × Value)) (key : String) (row : Row)
    (m : Tables) : Res Unit × Tables → Prop
  | refused {fault} : (∀ row' key', assignRow schema assignments row = .ok row' → IsRow schema key' row' →
      (key' = key → ¬ (TxnRecord.set 0 key (encodeRow row')).Loggable) ∧ (key' ≠ key → m.get key' ≠ none)) →
      Updated schema assignments key row m (.error fault, m)
  | replaced {row'} : assignRow schema assignments row = .ok row' → IsRow schema key row' →
      (TxnRecord.set 0 key (encodeRow row')).Loggable →
      Updated schema assignments key row m (.ok (), m.insert key (encodeRow row'))
  | moved {row' key'} : assignRow schema assignments row = .ok row' → IsRow schema key' row' →
      key' ≠ key → m.get key' = none → (TxnRecord.set 0 key' (encodeRow row')).Loggable →
      Updated schema assignments key row m (.ok (), (m.erase key).insert key' (encodeRow row'))
  | lost {row' key' fault} : assignRow schema assignments row = .ok row' → IsRow schema key' row' →
      key' ≠ key → m.get key' = none → ¬ (TxnRecord.set 0 key' (encodeRow row')).Loggable →
      Updated schema assignments key row m (.error fault, m.erase key)

theorem updateRow_cases (assignments : List (String × Value)) (hrow : IsRow schema key row)
    (hdel : (TxnRecord.delete 0 key).Loggable) : Updated schema assignments key row m
      ((updateRow schema assignments key row : Act Tables Unit).run m) := by
  unfold updateRow
  rcases hassign : assignRow schema assignments row with fault | row'
  · refine .refused fun row' key' h => ?_
    rw [hassign] at h
    cases h
  rw [Act.run_bind_ok (Act.run_lift (.ok row') m)]
  -- a refusal is about the row that was assigned, and about its key
  have hunique : ∀ {row₁ key₁ key'}, assignRow schema assignments row = .ok row₁ →
      IsRow schema key₁ row₁ → rowKey schema row' = .ok key' → row₁ = row' ∧ key₁ = key' := by
    intro row₁ key₁ key' h₁ hrow₁ hkey'
    obtain rfl : row' = row₁ := Except.ok.inj (hassign.symm.trans h₁)
    exact ⟨rfl, Except.ok.inj (hrow₁.key.symm.trans hkey')⟩
  rcases hkey : rowKey schema row' with fault | key'
  · refine .refused fun row₁ key₁ h₁ hrow₁ => ?_
    obtain rfl : row' = row₁ := Except.ok.inj (hassign.symm.trans h₁)
    exact nomatch hkey.symm.trans hrow₁.key
  rw [Act.run_bind_ok (Act.run_lift (.ok key') m)]
  have hrow' : IsRow schema key' row' := ⟨assignRow_matches hrow.fits hassign, hkey⟩
  by_cases hne : key' = key
  · rw [if_neg (not_not.2 hne), set_run]
    subst hne
    rcases hr : refusal (.set 0 key' (encodeRow row')) with _ | fault
    · exact .replaced hassign hrow' (refusal_eq_none.1 hr)
    · refine .refused fun row₁ key₁ h₁ hrow₁ => ?_
      obtain ⟨rfl, rfl⟩ := hunique h₁ hrow₁ hkey
      refine ⟨fun _ hl => ?_, fun hne => absurd rfl hne⟩
      rw [refusal_eq_none.2 hl] at hr
      cases hr
  · rw [if_pos hne, Act.run_bind_ok (get_run m key')]
    rcases hget : m.get key' with _ | text
    · rw [if_neg (by simp), Act.run_bind_ok (by rw [delete_run, refusal_eq_none.2 hdel]; rfl), set_run]
      rcases hr : refusal (.set 0 key' (encodeRow row')) with _ | fault
      · exact .moved hassign hrow' hne hget (refusal_eq_none.1 hr)
      · refine .lost hassign hrow' hne hget fun hl => ?_
        rw [refusal_eq_none.2 hl] at hr
        cases hr
    · rw [if_pos Option.isSome_some]
      refine .refused fun row₁ key₁ h₁ hrow₁ => ?_
      obtain ⟨rfl, rfl⟩ := hunique h₁ hrow₁ hkey
      exact ⟨fun heq => absurd heq hne, fun _ hnone => nomatch hget.symm.trans hnone⟩

theorem Updated.sound {out : Res Unit × Tables} {assignments : List (String × Value)}
    (hout : Updated schema assignments key row m out) (h : Sound schemas m)
    (hs : schemas table = some schema) (hrow : IsRow schema key row) : Sound schemas out.2 := by
  cases hout with
  | refused _ => exact h
  | replaced _ hrow' hl => exact h.insertRow hs hrow' hl
  | moved _ hrow' _ _ hl => exact (h.eraseRow hs hrow).insertRow hs hrow' hl
  | lost _ _ _ _ _ => exact h.eraseRow hs hrow

/-- **The loops over matching rows** keep what their bodies keep. -/
theorem forMatching_preserves {σ : Type} {I : σ → Prop} {filter : Option Expr}
    {body : String → Row → Act σ Unit} {rows : List (String × Row)}
    (hbody : ∀ e ∈ rows, Act.Preserves I (body e.1 e.2)) (affected : ℕ) :
    Act.Preserves I (forMatching schema filter body rows affected) := by
  induction rows generalizing affected with
  | nil => exact Act.preserves_pure _
  | cons e rows ih =>
    have ih := fun n => ih (fun e' he' => hbody e' (List.mem_cons_of_mem _ he')) n
    refine Act.preserves_bind (Act.preserves_lift _) fun kept => ?_
    exact Act.preserves_ite (Act.preserves_bind (hbody e List.mem_cons_self) fun _ => ih _) (ih _)

/-- The rows of a table can be deleted. -/
theorem Sound.deletable (h : Sound schemas m) (hs : schemas table = some schema)
    (hmem : (key, row) ∈ rowsOf m schema) : (TxnRecord.delete 0 key).Loggable :=
  loggable_delete (h.logged ((mem_rowsOf h hs).1 hmem).2)

/-- The schemas after a statement on tables. -/
def createdBy (schemas : String → Option Schema) : Statement → Res SqlResult → String → Option Schema
  | .createTable table columns, .ok _ => Function.update schemas table (some ⟨table, columns⟩)
  | _, _ => schemas

/-- A statement on an existing table: nothing happens if there is none. -/
theorem onTable_cases {α : Type} (h : Sound schemas m) (table : String) (f : Schema → Act Tables α) :
    (∃ fault, (loadSchema table >>= f).run m = (.error fault, m)) ∨
    ∃ schema, schemas table = some schema ∧ (loadSchema table >>= f).run m = (f schema).run m := by
  have hload := loadSchema_run h table
  rcases hs : schemas table with _ | schema
  · rw [hs] at hload
    exact Or.inl ⟨_, Act.run_bind_error hload⟩
  · rw [hs] at hload
    exact Or.inr ⟨schema, rfl, Act.run_bind_ok hload⟩

/-! Reading leaves the tables as they are. -/

section Reading
variable {I : Tables → Prop}

theorem preserves_loadSchema (table : String) : Act.Preserves I (loadSchema table) := by
  refine Act.preserves_bind (fun _ h => h) fun encoded => ?_
  cases encoded with
  | none => exact Act.preserves_lift _
  | some encoded => exact Act.preserves_lift _

theorem preserves_allRows (schema : Schema) : Act.Preserves I (allRows schema) :=
  Act.preserves_bind (fun _ h => h) fun _ => Act.preserves_lift _

theorem preserves_accessRows (schema : Schema) (access : Access) :
    Act.Preserves I (accessRows schema access) := by
  cases access with
  | fullScan => exact Act.preserves_bind (preserves_allRows schema) fun _ => Act.preserves_pure _
  | primaryKey value =>
    refine Act.preserves_ite (Act.preserves_pure _) ?_
    refine Act.preserves_bind (Act.preserves_lift _) fun key => ?_
    refine Act.preserves_bind (fun _ h => h) fun encoded => ?_
    cases encoded with
    | none => exact Act.preserves_pure _
    | some encoded => exact Act.preserves_bind (Act.preserves_lift _) fun _ => Act.preserves_pure _

theorem preserves_selectWith (access : Schema → Res Access) (select : Select) :
    Act.Preserves I (selectWith access select) :=
  Act.preserves_bind (preserves_loadSchema _) fun schema => Act.preserves_bind (Act.preserves_lift _)
    fun access => Act.preserves_bind (preserves_accessRows schema access) fun _ => Act.preserves_lift _

theorem preserves_explain (select : Select) : Act.Preserves I (explain select) :=
  Act.preserves_bind (preserves_loadSchema _) fun _ => Act.preserves_bind (Act.preserves_lift _)
    fun _ => Act.preserves_pure _

end Reading

theorem update_sound (h : Sound schemas m) (table : String) (assignments : List (String × Value))
    (filter : Option Expr) :
    Sound schemas ((update table assignments filter : Act Tables SqlResult).run m).2 := by
  obtain ⟨fault, hrun⟩ | ⟨schema, hs, hrun⟩ := onTable_cases h table fun schema => do
    let rows ← allRows schema
    forMatching schema filter (updateRow schema assignments) rows 0
  · rw [update, hrun]
    exact h
  · rw [update, hrun, Act.run_bind_ok (allRows_run h hs)]
    refine forMatching_preserves (fun e he => ?_) 0 m h
    intro m' h'
    have hrow := ((mem_rowsOf h hs).1 he).1
    exact (updateRow_cases assignments hrow (h.deletable hs he)).sound h' hs hrow

theorem delete_sound (h : Sound schemas m) (table : String) (filter : Option Expr) :
    Sound schemas ((delete table filter : Act Tables SqlResult).run m).2 := by
  obtain ⟨fault, hrun⟩ | ⟨schema, hs, hrun⟩ := onTable_cases h table fun schema => do
    let rows ← allRows schema
    forMatching schema filter (fun key _ => Txn.delete key) rows 0
  · rw [delete, hrun]
    exact h
  · rw [delete, hrun, Act.run_bind_ok (allRows_run h hs)]
    refine forMatching_preserves (fun e he => ?_) 0 m h
    intro m' h'
    rw [delete_run, refusal_eq_none.2 (h.deletable hs he)]
    exact h'.eraseRow hs ((mem_rowsOf h hs).1 he).1

/-- **Statements keep tables sound**, also those that fail. -/
theorem executeData_sound (h : Sound schemas m) {statement : Statement} (hnamed : statement.Named) :
    Sound (createdBy schemas statement ((executeData statement : Act Tables SqlResult).run m).1)
      ((executeData statement : Act Tables SqlResult).run m).2 := by
  cases statement with
  | createTable table columns =>
    change Sound (createdBy schemas _ ((createTable table columns : Act Tables SqlResult).run m).1)
      ((createTable table columns : Act Tables SqlResult).run m).2
    obtain ⟨fault, hrun⟩ | ⟨hs, hval, hl, hrun⟩ := createTable_cases h table columns
    · rw [hrun]
      exact h
    · rw [hrun]
      have hnone : schemas (Schema.mk table columns).name = none := hs
      exact h.create hnone ⟨hval, hnamed.1, hnamed.2⟩ hl
  | insert table columns values =>
    change Sound schemas ((insert table columns values : Act Tables SqlResult).run m).2
    obtain ⟨fault, hrun⟩ | ⟨schema, key, row, hs, hrow, -, hl, hrun⟩ := insert_cases h table columns values
    · rw [hrun]
      exact h
    · rw [hrun]
      exact h.insertRow hs hrow hl
  | select select => exact preserves_selectWith _ select m h
  | update table assignments filter => exact update_sound h table assignments filter
  | delete table filter => exact delete_sound h table filter
  | explain select => exact preserves_explain select m h
  | begin => exact h
  | commit => exact h
  | rollback => exact h

end Sound

end NutDb.Sql
