/-
  The grammar of scripts.

  It says which tokens may stand in a script and where parentheses of expressions
  are open.  It knows nothing of the parser: statements stand between semicolons,
  each begins with a word of its own, and the operands of comparisons are words,
  literals and expressions in parentheses.
-/
import NutDb.Lib.Grammar
import NutDb.Sql.Lexer

namespace NutDb.Sql

open Lib

/-- The rules that lead back to themselves, and the parenthesis behind an expression. -/
inductive Rule where
  | script
  | primary
  | close
  deriving DecidableEq, Repr

/-- What a script is made of. -/
abbrev Phrase := Grammar.Symbol Rule TokenKind

namespace Phrase

open Grammar (just)

/-! ## Tokens -/

def isWord : TokenKind → Bool
  | .word _ => true
  | _ => false

def isTypeName : TokenKind → Bool
  | .word w => decide (w ∈ ["INT", "INTEGER", "TEXT", "BOOL", "BOOLEAN"])
  | _ => false

def isLiteral : TokenKind → Bool
  | .integer _ | .string _ => true
  | .word w => decide (w ∈ ["NULL", "TRUE", "FALSE"])
  | _ => false

/-- The numbers of a `LIMIT`. -/
def isNumber : TokenKind → Bool
  | .integer value => decide (0 ≤ value.val)
  | _ => false

/-- The operands without parentheses: columns and literals. -/
def isOperand : TokenKind → Bool
  | .word _ | .integer _ | .string _ => true
  | _ => false

def isOperator : TokenKind → Bool
  | .eq | .ne | .lt | .le | .gt | .ge => true
  | _ => false

def isDirection : TokenKind → Bool
  | .word w => decide (w ∈ ["ASC", "DESC"])
  | _ => false

/-- One token. -/
def token (first : TokenKind → Bool) : Phrase := .choice [(first, [])]

def name : Phrase := token isWord

def symbol (kind : TokenKind) : Phrase := token (just kind)

def keyword (w : String) : Phrase := symbol (.word w)

/-- More items, behind commas. -/
def more (item : List Phrase) : Phrase := .many (just .comma) item

/-! ## Expressions -/

def comparison : List Phrase := [.rule .primary, .optional isOperator [.rule .primary]]

def conjunction : List Phrase := comparison ++ [.many (just (.word "AND")) comparison]

def disjunction : List Phrase := conjunction ++ [.many (just (.word "OR")) conjunction]

/-! ## Statements -/

def column : List Phrase := [name, token isTypeName, .optional (just (.word "PRIMARY")) [keyword "KEY"]]

def assignment : List Phrase := [name, symbol .eq, token isLiteral]

/-- `*`, or names. -/
def projection : Phrase := .choice [(just .star, []), (isWord, [more [name]])]

def filter : Phrase := .optional (just (.word "WHERE")) disjunction

def orderBy : Phrase := .optional (just (.word "ORDER")) [keyword "BY", name, .optional isDirection []]

def limit : Phrase := .optional (just (.word "LIMIT")) [token isNumber]

def select : List Phrase := [projection, keyword "FROM", name, filter, orderBy, limit]

/-- A semicolon, or the end. -/
def separator : Phrase := .choice [(just .semicolon, [.rule .script]), (just .done, [])]

/-- A statement that begins with the word. -/
def statement (w : String) (body : List Phrase) : (TokenKind → Bool) × List Phrase :=
  (just (.word w), body ++ [separator])

def statements : List ((TokenKind → Bool) × List Phrase) :=
  [statement "CREATE" ([keyword "TABLE", name, symbol .leftParen] ++ column ++ [more column, symbol .rightParen]),
    statement "INSERT" [keyword "INTO", name, symbol .leftParen, name, more [name], symbol .rightParen,
      keyword "VALUES", symbol .leftParen, token isLiteral, more [token isLiteral], symbol .rightParen],
    statement "SELECT" select,
    statement "UPDATE" ([name, keyword "SET"] ++ assignment ++ [more assignment, filter]),
    statement "DELETE" [keyword "FROM", name, filter],
    statement "BEGIN" [],
    statement "COMMIT" [],
    statement "ROLLBACK" [],
    statement "EXPLAIN" (keyword "SELECT" :: select)]

end Phrase

def Rule.alternatives : Rule → List ((TokenKind → Bool) × List Phrase)
  | .script => (Grammar.just .done, []) :: (Grammar.just .semicolon, [.rule .script]) :: Phrase.statements
  | .primary => [(Grammar.just .leftParen, Phrase.disjunction ++ [.rule .close]), (Phrase.isOperand, [])]
  | .close => [(Grammar.just .rightParen, [])]

/-- **The grammar of scripts**; it counts the parentheses of expressions. -/
def grammar : Grammar Rule TokenKind := ⟨.script, Rule.alternatives, fun rule => decide (rule = .close)⟩

end NutDb.Sql
