/-
  The parser (`src/sql/parser.rs`).

  The tokens never change, so the state of the parser is its offset.  `primary`
  and the expressions inside it are defined by recursion on the depth of the
  parentheses: `frames` is how many nested calls of `primary` the stack has room
  for.  `while` loops take the number of tokens as a bound of their turns, since
  each turn consumes one.
-/
import NutDb.Sql.Lexer
import NutDb.Lib.Act

namespace NutDb.Sql

open Lib

namespace Parser

section
variable (tokens : List Token)

/-! ## Tokens -/

/-- `peek`. -/
def peek : Act ℕ Token := fun offset => (Res.get tokens offset, offset)

/-- `self.offset += 1`. -/
def skip : Act ℕ Unit := Act.modify (· + 1)

/-- `at_end`. -/
def atEnd : Act ℕ Bool := do
  let token ← peek tokens
  return token.kind == .done

/-- `advance`. -/
def advance : Act ℕ Token := do
  let token ← peek tokens
  if ← atEnd tokens then return token
  else
    skip
    return token

/-- `expected`. -/
def expected {α : Type} (what : String) : Act ℕ α := do
  let token ← peek tokens
  Act.lift (error token.pos ("expected " ++ what))

/-- `consume_simple`. -/
def consumeSimple (kind : TokenKind) : Act ℕ Bool := do
  let token ← peek tokens
  if token.kind = kind then
    skip
    return true
  else return false

/-- `expect_simple`. -/
def expectSimple (kind : TokenKind) (description : String) : Act ℕ Unit := do
  if ← consumeSimple tokens kind then return () else expected tokens description

/-- `check_word`. -/
def checkWord (word : String) : Act ℕ Bool := do
  let token ← peek tokens
  return token.kind == .word word

/-- `consume_word`. -/
def consumeWord (word : String) : Act ℕ Bool := do
  if ← checkWord tokens word then
    skip
    return true
  else return false

/-- `expect_word`. -/
def expectWord (word : String) : Act ℕ Unit := do
  if ← consumeWord tokens word then return () else expected tokens ("'" ++ word ++ "'")

/-- `word`. -/
def word : Act ℕ String := do
  let token ← advance tokens
  match token.kind with
  | .word word => return word
  | _ => Act.lift (error token.pos "expected an identifier")

/-- `identifier`. -/
def identifier : Act ℕ String := word tokens

/-- `literal`. -/
def literal : Act ℕ Value := do
  let token ← advance tokens
  match token.kind with
  | .integer value => return .integer value
  | .string value => return .text value
  | .word word =>
    if word = "NULL" then return .null
    else if word = "TRUE" then return .boolean true
    else if word = "FALSE" then return .boolean false
    else Act.lift (error token.pos "expected a literal value")
  | _ => Act.lift (error token.pos "expected a literal value")

/-- What a loop does when it has taken more turns than there are tokens. -/
def endless {α : Type} : Act ℕ α := Act.lift (.error (.panic .stackOverflow))

/-- A loop that goes on as long as it finds a comma. -/
def commaSeparated {α : Type} (item : Act ℕ α) : ℕ → Act ℕ (List α)
  | 0 => endless
  | fuel + 1 => do
    let a ← item
    if ← consumeSimple tokens .comma then
      let rest ← commaSeparated item fuel
      return a :: rest
    else return [a]

/-- `identifier_list` and `identifier_list_until_word`, which differ in how they see the end. -/
def identifiersUntil (atEnd : Act ℕ Bool) : ℕ → Act ℕ (List String)
  | 0 => endless
  | fuel + 1 => do
    let name ← identifier tokens
    if ← atEnd then return [name]
    else
      expectSimple tokens .comma "','"
      let rest ← identifiersUntil atEnd fuel
      return name :: rest

/-- `identifier_list`. -/
def identifierList (stop : TokenKind) : Act ℕ (List String) :=
  identifiersUntil tokens (consumeSimple tokens stop) tokens.length

/-- `identifier_list_until_word`. -/
def identifierListUntilWord (word : String) : Act ℕ (List String) :=
  identifiersUntil tokens (checkWord tokens word) tokens.length

/-! ## Expressions -/

/-- The loops of `or` and `and`: operands between the same word, from the left. -/
def operatorLoop (word : String) (op : BinaryOp) (operand : Act ℕ Expr) : ℕ → Expr → Act ℕ Expr
  | 0, _ => endless
  | fuel + 1, expr => do
    if ← consumeWord tokens word then
      let right ← operand
      operatorLoop word op operand fuel (.binary op expr right)
    else return expr

/-- The operators of comparisons. -/
def comparisonOp : TokenKind → Option BinaryOp
  | .eq => some .eq
  | .ne => some .ne
  | .lt => some .lt
  | .le => some .le
  | .gt => some .gt
  | .ge => some .ge
  | _ => none

/-- `comparison`. -/
def comparison (primary : Act ℕ Expr) : Act ℕ Expr := do
  let left ← primary
  let token ← peek tokens
  match comparisonOp token.kind with
  | some op =>
    skip
    let right ← primary
    return .binary op left right
  | none => return left

/-- `and`. -/
def and (primary : Act ℕ Expr) : Act ℕ Expr := do
  let expr ← comparison tokens primary
  operatorLoop tokens "AND" .and (comparison tokens primary) tokens.length expr

/-- `or`. -/
def or (primary : Act ℕ Expr) : Act ℕ Expr := do
  let expr ← and tokens primary
  operatorLoop tokens "OR" .or (and tokens primary) tokens.length expr

/-- `primary`, with the depth of parentheses that is left: the stack has room for so many calls. -/
def primary : ℕ → Act ℕ Expr
  | 0 => endless
  | depth + 1 => do
    if ← consumeSimple tokens .leftParen then
      let expr ← or tokens (primary depth)
      expectSimple tokens .rightParen "')'"
      return expr
    else
      let token ← peek tokens
      match token.kind with
      | .integer _ | .string _ => return .literal (← literal tokens)
      | .word word =>
        if word = "NULL" ∨ word = "TRUE" ∨ word = "FALSE" then return .literal (← literal tokens)
        else return .column (← identifier tokens)
      | _ => expected tokens "column, literal, or parenthesized expression"

variable (frames : ℕ)

/-- `expr`. -/
def expr : Act ℕ Expr := or tokens (primary tokens frames)

/-- A filter, if there is one. -/
def filter : Act ℕ (Option Expr) := do
  if ← consumeWord tokens "WHERE" then return some (← expr tokens frames) else return none

/-! ## Statements -/

/-- The type with the given name. -/
def namedType (typeName : String) : Act ℕ DataType :=
  if typeName = "INT" ∨ typeName = "INTEGER" then pure .integer
  else if typeName = "TEXT" then pure .text
  else if typeName = "BOOL" ∨ typeName = "BOOLEAN" then pure .boolean
  else expected tokens "INT, TEXT, or BOOLEAN"

/-- A column of `create_table`. -/
def columnDef : Act ℕ ColumnDef := do
  let name ← identifier tokens
  let typeName ← word tokens
  let dataType ← namedType tokens typeName
  if ← consumeWord tokens "PRIMARY" then
    expectWord tokens "KEY"
    return ⟨name, dataType, true⟩
  else return ⟨name, dataType, false⟩

/-- `create_table`. -/
def createTable : Act ℕ Statement := do
  let table ← identifier tokens
  expectSimple tokens .leftParen "'('"
  let columns ← commaSeparated tokens (columnDef tokens) tokens.length
  expectSimple tokens .rightParen "')'"
  return .createTable table columns

/-- `insert`. -/
def insert : Act ℕ Statement := do
  let table ← identifier tokens
  expectSimple tokens .leftParen "'('"
  let columns ← identifierList tokens .rightParen
  expectWord tokens "VALUES"
  expectSimple tokens .leftParen "'('"
  let values ← commaSeparated tokens (literal tokens) tokens.length
  expectSimple tokens .rightParen "')'"
  return .insert table columns values

/-- The `ORDER BY` of a select, if there is one. -/
def orderBy : Act ℕ (Option (String × Bool)) := do
  if ← consumeWord tokens "ORDER" then
    expectWord tokens "BY"
    let column ← identifier tokens
    if ← consumeWord tokens "DESC" then return some (column, false)
    else
      let _ ← consumeWord tokens "ASC"
      return some (column, true)
  else return none

/-- The `LIMIT` of a select, if there is one. -/
def limit : Act ℕ (Option ℕ) := do
  if ← consumeWord tokens "LIMIT" then
    let token ← advance tokens
    match token.kind with
    | .integer value =>
      if 0 ≤ value.val then return some value.val.toNat
      else Act.lift (error token.pos "LIMIT expects a nonnegative integer")
    | _ => Act.lift (error token.pos "LIMIT expects a nonnegative integer")
  else return none

/-- The projection of a select. -/
def projection : Act ℕ Projection := do
  if ← consumeSimple tokens .star then return .all
  else return .columns (← identifierListUntilWord tokens "FROM")

/-- `select_after_keyword`. -/
def selectAfterKeyword : Act ℕ Select := do
  let projection ← projection tokens
  expectWord tokens "FROM"
  let table ← identifier tokens
  let filter ← filter tokens frames
  let orderBy ← orderBy tokens
  let limit ← limit tokens
  return ⟨table, projection, filter, orderBy, limit⟩

/-- An assignment of `update`. -/
def assignment : Act ℕ (String × Value) := do
  let column ← identifier tokens
  expectSimple tokens .eq "'='"
  let value ← literal tokens
  return (column, value)

/-- `update`. -/
def update : Act ℕ Statement := do
  let table ← identifier tokens
  expectWord tokens "SET"
  let assignments ← commaSeparated tokens (assignment tokens) tokens.length
  let filter ← filter tokens frames
  return .update table assignments filter

/-- `delete`. -/
def delete : Act ℕ Statement := do
  let table ← identifier tokens
  let filter ← filter tokens frames
  return .delete table filter

/-- `statement`. -/
def statement : Act ℕ Statement := do
  if ← consumeWord tokens "CREATE" then
    expectWord tokens "TABLE"
    createTable tokens
  else if ← consumeWord tokens "INSERT" then
    expectWord tokens "INTO"
    insert tokens
  else if ← consumeWord tokens "SELECT" then return .select (← selectAfterKeyword tokens frames)
  else if ← consumeWord tokens "UPDATE" then update tokens frames
  else if ← consumeWord tokens "DELETE" then
    expectWord tokens "FROM"
    delete tokens frames
  else if ← consumeWord tokens "BEGIN" then return .begin
  else if ← consumeWord tokens "COMMIT" then return .commit
  else if ← consumeWord tokens "ROLLBACK" then return .rollback
  else if ← consumeWord tokens "EXPLAIN" then
    expectWord tokens "SELECT"
    return .explain (← selectAfterKeyword tokens frames)
  else expected tokens "CREATE, INSERT, SELECT, UPDATE, DELETE, or transaction command"

/-- The loop of `parse`. -/
def statements : ℕ → Act ℕ (List Statement)
  | 0 => endless
  | fuel + 1 => do
    if ← atEnd tokens then return []
    else if ← consumeSimple tokens .semicolon then statements fuel
    else
      let first ← statement tokens frames
      if ← consumeSimple tokens .semicolon then return first :: (← statements fuel)
      else if ← atEnd tokens then return first :: (← statements fuel)
      else expected tokens "';' between statements"

end

end Parser

/-- `parse`, on the tokens of the source. -/
def parseTokens (frames : ℕ) (tokens : List Token) : Res (List Statement) := do
  let statements ← ((Parser.statements tokens frames (tokens.length + 1)).run 0).1
  if statements.isEmpty then error 0 "expected a statement" else return statements

/-- `parse`, on a stack with room for a call for each token, which is always enough. -/
def parse (source : String) : Res (List Statement) := do
  let tokens ← lex source
  parseTokens tokens.length tokens

end NutDb.Sql
