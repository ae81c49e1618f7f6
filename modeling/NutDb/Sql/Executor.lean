/-
  Planning and execution of statements (`src/sql/plan.rs`, `src/sql/executor.rs`).

  The code is generic in the transaction that it runs on (`Txn`).  A `select`
  reads through the access path that the planner has chosen; `selectWith` has it
  as an argument, so that two paths can be compared.
-/
import NutDb.Catalog

namespace NutDb.Sql

open Lib

/-! ## Planning -/

/-- `Access`. -/
inductive Access where
  | fullScan
  | primaryKey (value : Value)
  deriving DecidableEq, Repr

/-- `Plan`. -/
structure Plan where
  access : Access
  select : Select
  deriving DecidableEq, Repr

/-- `primary_equality`. -/
def primaryEquality (expr : Expr) (primary : String) : Option Value :=
  match expr with
  | .binary .eq (.column column) (.literal value) => if column = primary then some value else none
  | .binary .eq (.literal value) (.column column) => if column = primary then some value else none
  | _ => none

/-- `plan_select`. -/
def planSelect (select : Select) (schema : Schema) : Res Plan := do
  let index ← schema.primaryIndex
  let primary ← Res.get schema.columns index
  let access := ((select.filter.bind fun expr => primaryEquality expr primary.name).map
    Access.primaryKey).getD .fullScan
  return ⟨access, select⟩

/-- `Plan`'s `Display`. -/
def Plan.display (plan : Plan) : String :=
  (match plan.access with
    | .fullScan => "Scan(table=" ++ plan.select.table ++ ")"
    | .primaryKey value =>
      "IndexLookup(table=" ++ plan.select.table ++ ", primary_key=" ++ value.display ++ ")") ++
  (if plan.select.filter.isSome then " -> Filter" else "") ++ " -> Project" ++
  (match plan.select.orderBy with
    | some (column, ascending) => " -> Sort(" ++ column ++ (if ascending then " ASC)" else " DESC)")
    | none => "") ++
  match plan.select.limit with
    | some limit => " -> Limit(" ++ limit.repr ++ ")"
    | none => ""

/-! ## Expressions -/

/-- `truth`. -/
def truth : Value → Res (Option Bool)
  | .boolean value => .ok (some value)
  | .null => .ok none
  | _ => input "sql: AND/OR expects boolean values"

/-- `logic_and`. -/
def logicAnd (left right : Value) : Res Value := do
  let left ← truth left
  let right ← truth right
  match left, right with
  | some false, _ | _, some false => return .boolean false
  | some true, some true => return .boolean true
  | _, _ => return .null

/-- `logic_or`. -/
def logicOr (left right : Value) : Res Value := do
  let left ← truth left
  let right ← truth right
  match left, right with
  | some true, _ | _, some true => return .boolean true
  | some false, some false => return .boolean false
  | _, _ => return .null

/-- The order of two values of one type. -/
def order : Value → Value → Res Ordering
  | .integer a, .integer b => .ok (compare a b)
  | .text a, .text b => .ok (compare a b)
  | .boolean a, .boolean b => .ok (compare a b)
  | _, _ => input "sql: cannot compare different types"

/-- `compare`. -/
def compareValues (op : BinaryOp) (left right : Value) : Res Value :=
  if left = .null ∨ right = .null then .ok .null
  else do
    let order ← order left right
    match op with
    | .eq => return .boolean (order == .eq)
    | .ne => return .boolean (order != .eq)
    | .lt => return .boolean (order == .lt)
    | .le => return .boolean (order != .gt)
    | .gt => return .boolean (order == .gt)
    | .ge => return .boolean (order != .lt)
    | .and | .or => .error (.panic (.unreachable "handled above"))

/-- The index of a column that a statement names. -/
def namedColumn (schema : Schema) (column : String) : Res ℕ :=
  Res.ofOption .invalidInput ("sql: unknown column '" ++ column ++ "'") (schema.columnIndex column)

/-- `eval`. -/
def eval (row : Row) (schema : Schema) : Expr → Res Value
  | .literal value => .ok value
  | .column column => do
    let index ← namedColumn schema column
    Res.get row index
  | .binary op left right => do
    let left ← eval row schema left
    let right ← eval row schema right
    match op with
    | .and => logicAnd left right
    | .or => logicOr left right
    | op => compareValues op left right

/-- `matches_filter`. -/
def matchesFilter (filter : Option Expr) (row : Row) (schema : Schema) : Res Bool :=
  match filter with
  | none => .ok true
  | some filter => do
    let value ← eval row schema filter
    return value == .boolean true

/-- `compare_for_sort`. -/
def compareForSort : Value → Value → Ordering
  | .null, .null => .eq
  | .null, _ => .lt
  | _, .null => .gt
  | left, right => left.cmp right

/-- `projection`. -/
def projection (schema : Schema) : Projection → Res (List String × List ℕ)
  | .all => .ok (schema.columns.map ColumnDef.name, List.range schema.columns.length)
  | .columns columns => do
    let indexes ← columns.mapM (namedColumn schema)
    return (columns, indexes)

/-! ## Reading -/

section
variable {σ : Type} [Txn σ]

/-- `all_rows`. -/
def allRows (schema : Schema) : Act σ (List (String × Row)) := do
  let entries ← Txn.scanPrefix (rowPrefix schema.name)
  Act.lift (entries.mapM fun (key, encoded) => do
    let row ← decodeRow encoded schema
    return (key, row))

/-- `access_rows`. -/
def accessRows (schema : Schema) : Access → Act σ (List Row)
  | .fullScan => do
    let rows ← allRows schema
    return rows.map Prod.snd
  | .primaryKey value =>
    if value = .null then return []
    else do
      let key ← Act.lift (rowKeyForPrimary schema value)
      match ← Txn.get key with
      | some encoded =>
        let row ← Act.lift (decodeRow encoded schema)
        return [row]
      | none => return []

/-- The loop over a `FilterSource`. -/
def filterRows (filter : Option Expr) (schema : Schema) : List Row → Res (List Row)
  | [] => .ok []
  | row :: rows => do
    let kept ← matchesFilter filter row schema
    let rest ← filterRows filter schema rows
    return if kept then row :: rest else rest

/-- The comparison of the `sort_by` of a `select`: the left row need not stand behind the right
    one.  A row without the column cannot be compared. -/
def sortsBefore (index : ℕ) (ascending : Bool) (left right : Row) : Bool :=
  match left[index]?, right[index]? with
  | some a, some b =>
    (if ascending then compareForSort a b else (compareForSort a b).swap) != .gt
  | _, _ => true

/-- The `ORDER BY` of a `select`; `sort_by` is stable. -/
def sortRows (schema : Schema) (rows : List Row) : Option (String × Bool) → Res (List Row)
  | none => .ok rows
  | some (column, ascending) => do
    let index ← Res.ofOption .invalidInput ("sql: unknown ORDER BY column '" ++ column ++ "'")
      (schema.columnIndex column)
    -- all rows are compared, so all of them are indexed
    let _ ← if rows.length ≤ 1 then .ok [] else rows.mapM fun row => Res.get row index
    return rows.mergeSort (sortsBefore index ascending)

/-- `select_rows`, from the rows that were read. -/
def finishSelect (schema : Schema) (select : Select) (rows : List Row) : Res SqlResult := do
  let rows ← filterRows select.filter schema rows
  let rows ← sortRows schema rows select.orderBy
  let rows := (select.limit.map rows.take).getD rows
  let (columns, indexes) ← projection schema select.projection
  let rows ← rows.mapM fun row => indexes.mapM (Res.get row)
  return .rows columns rows

/-- `select_rows`, with any access path. -/
def selectWith (access : Schema → Res Access) (select : Select) : Act σ SqlResult := do
  let schema ← loadSchema select.table
  let access ← Act.lift (access schema)
  let rows ← accessRows schema access
  Act.lift (finishSelect schema select rows)

/-- `select_rows`. -/
def selectRows (select : Select) : Act σ SqlResult :=
  selectWith (fun schema => (planSelect select schema).map Plan.access) select

/-! ## Writing -/

/-- The loop of `insert` over the columns and values. -/
def assignInserted (schema : Schema) : List (String × Value) → Row → List Bool → Res Row
  | [], row, _ => .ok row
  | (column, value) :: rest, row, assigned => do
    let index ← namedColumn schema column
    if ← Res.get assigned index then input "sql: duplicate INSERT column"
    else
      let definition ← Res.get schema.columns index
      checkType value definition.dataType
      let row ← Res.setAt row index value
      let assigned ← Res.setAt assigned index true
      assignInserted schema rest row assigned

/-- `insert`. -/
def insert (table : String) (columns : List String) (values : List Value) : Act σ SqlResult := do
  let schema ← loadSchema table
  if columns.length ≠ values.length then
    Act.lift (input "sql: INSERT column/value count mismatch")
  else
    let row ← Act.lift (assignInserted schema (columns.zip values)
      (List.replicate schema.columns.length .null) (List.replicate schema.columns.length false))
    let key ← Act.lift (rowKey schema row)
    if (← Txn.get key).isSome then Act.lift (input "sql: duplicate primary key")
    else
      Txn.set key (encodeRow row)
      return .affected 1

/-- The assignments of an `update`, to one row. -/
def assignRow (schema : Schema) : List (String × Value) → Row → Res Row
  | [], row => .ok row
  | (column, value) :: rest, row => do
    let index ← namedColumn schema column
    let definition ← Res.get schema.columns index
    checkType value definition.dataType
    let row ← Res.setAt row index value
    assignRow schema rest row

/-- What `update` does with a matching row. -/
def updateRow (schema : Schema) (assignments : List (String × Value)) (oldKey : String) (row : Row) :
    Act σ Unit := do
  let row ← Act.lift (assignRow schema assignments row)
  let newKey ← Act.lift (rowKey schema row)
  if newKey ≠ oldKey then
    if (← Txn.get newKey).isSome then Act.lift (input "sql: duplicate primary key")
    else
      Txn.delete oldKey
      Txn.set newKey (encodeRow row)
  else Txn.set newKey (encodeRow row)

/-- The loops of `update` and `delete`: something is done with every matching row. -/
def forMatching (schema : Schema) (filter : Option Expr) (body : String → Row → Act σ Unit) :
    List (String × Row) → ℕ → Act σ SqlResult
  | [], affected => return .affected affected
  | (key, row) :: rows, affected => do
    if ← Act.lift (matchesFilter filter row schema) then
      body key row
      forMatching schema filter body rows (affected + 1)
    else forMatching schema filter body rows affected

/-- `update`. -/
def update (table : String) (assignments : List (String × Value)) (filter : Option Expr) :
    Act σ SqlResult := do
  let schema ← loadSchema table
  let rows ← allRows schema
  forMatching schema filter (updateRow schema assignments) rows 0

/-- `delete`. -/
def delete (table : String) (filter : Option Expr) : Act σ SqlResult := do
  let schema ← loadSchema table
  let rows ← allRows schema
  forMatching schema filter (fun key _ => Txn.delete key) rows 0

/-- The statement `CREATE TABLE`. -/
def createTable (table : String) (columns : List ColumnDef) : Act σ SqlResult := do
  Act.lift (Schema.validate ⟨table, columns⟩)
  if (← Txn.get (catalogKey table)).isSome then
    Act.lift (input ("sql: table '" ++ table ++ "' already exists"))
  else
    saveSchema ⟨table, columns⟩
    return .affected 0

/-- The statement `EXPLAIN`. -/
def explain (select : Select) : Act σ SqlResult := do
  let schema ← loadSchema select.table
  let plan ← Act.lift (planSelect select schema)
  return .explain plan.display

/-- `execute_data`. -/
def executeData : Statement → Act σ SqlResult
  | .createTable table columns => createTable table columns
  | .insert table columns values => insert table columns values
  | .select select => selectRows select
  | .update table assignments filter => update table assignments filter
  | .delete table filter => delete table filter
  | .explain select => explain select
  | .begin | .commit | .rollback => Act.lift (input "sql: internal transaction dispatch error")

end

end NutDb.Sql
