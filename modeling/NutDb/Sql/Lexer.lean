/-
  The lexer (`src/sql/lexer.rs`).

  It runs over the bytes of the source.  A state of its loop is the offset and
  the bytes from there on; `lexToken` reads one token and returns the bytes after
  it.  Taking a part of the source as text panics unless the part begins and ends
  between characters, that is, unless its bytes are UTF-8.
-/
import NutDb.Sql.Ast

namespace NutDb.Sql

open Lib

/-- `TokenKind`. -/
inductive TokenKind where
  | word (word : String)
  | integer (value : I64)
  | string (value : String)
  | comma
  | leftParen
  | rightParen
  | star
  | semicolon
  | eq
  | ne
  | lt
  | le
  | gt
  | ge
  | done
  deriving DecidableEq, Repr

/-- `Token`; `done` stands for `End`. -/
structure Token where
  kind : TokenKind
  pos : ℕ
  deriving DecidableEq, Repr

/-- `error`. -/
def error {α : Type} (pos : ℕ) (message : String) : Res α :=
  Res.fail .invalidInput ("sql at byte " ++ pos.repr ++ ": " ++ message)

/-! ## Characters -/

/-- `u8::is_ascii_whitespace`. -/
def isAsciiWhitespace (byte : UInt8) : Bool :=
  byte == 0x20 || byte == 0x09 || byte == 0x0A || byte == 0x0C || byte == 0x0D

/-- `u8::is_ascii_digit`. -/
def isAsciiDigit (byte : UInt8) : Bool := 0x30 ≤ byte && byte ≤ 0x39

/-- `u8::is_ascii_alphabetic`. -/
def isAsciiAlphabetic (byte : UInt8) : Bool :=
  (0x41 ≤ byte && byte ≤ 0x5A) || (0x61 ≤ byte && byte ≤ 0x7A)

/-- The bytes that words go on with. -/
def isWordByte (byte : UInt8) : Bool := isAsciiAlphabetic byte || isAsciiDigit byte || byte == 0x5F

/-- `str::to_ascii_uppercase`. -/
def toAsciiUppercase (s : String) : String := String.ofList (s.toList.map Char.toUpper)

/-- A part of the source, as text. -/
def slice (bytes : Bytes) : Res String :=
  match ofUtf8 bytes with
  | some s => .ok s
  | none => .error (.panic .index)

/-! ## Tokens -/

/-- The loop over the bytes of a string literal, with the value so far. -/
def lexString (pos : ℕ) : ℕ → Bytes → List Char → Res (String × Bytes)
  | 0, _, _ => .error (.panic .stackOverflow)
  | _ + 1, [], _ => error pos "unterminated string literal"
  | fuel + 1, byte :: rest, value =>
    if byte = 0x27 then
      match rest with
      | 0x27 :: rest => lexString pos fuel rest (value ++ ['\''])
      | rest => .ok (String.ofList value, rest)
    else do
      let tail ← slice (byte :: rest)
      match tail.toList with
      | [] => error pos "unterminated string literal"
      | character :: _ =>
        lexString pos fuel ((byte :: rest).drop character.utf8Size) (value ++ [character])

/-- An integer literal: `sign` is the minus sign or nothing. -/
def lexInteger (pos : ℕ) (sign bytes : Bytes) : Res (TokenKind × Bytes) := do
  let text ← slice (sign ++ bytes.takeWhile isAsciiDigit)
  match I64.parse text with
  | some value => return (.integer value, bytes.dropWhile isAsciiDigit)
  | none => error pos "integer literal out of range"

/-- The tokens of one byte, but for `<` and `>`. -/
def SINGLE : List (UInt8 × TokenKind) :=
  [(0x2C, .comma), (0x28, .leftParen), (0x29, .rightParen), (0x2A, .star), (0x3B, .semicolon), (0x3D, .eq)]

/-- The tokens that have a second byte, `=`. -/
def WITH_EQ : List (UInt8 × TokenKind) := [(0x21, .ne), (0x3C, .le), (0x3E, .ge)]

/-- `<` and `>`. -/
def ANGLE : List (UInt8 × TokenKind) := [(0x3C, .lt), (0x3E, .gt)]

/-- A token of one or two bytes, and the bytes after it. -/
def punctuation (byte : UInt8) (rest : Bytes) : Option (TokenKind × Bytes) :=
  match SINGLE.lookup byte with
  | some kind => some (kind, rest)
  | none =>
    match if rest.head? = some 0x3D then WITH_EQ.lookup byte else none with
    | some kind => some (kind, rest.tail)
    | none => (ANGLE.lookup byte).map fun kind => (kind, rest)

/-- One token, that begins with `byte`. -/
def lexToken (pos : ℕ) (byte : UInt8) (rest : Bytes) : Res (TokenKind × Bytes) :=
  match punctuation byte rest with
  | some token => .ok token
  | none =>
    if byte = 0x27 then do
      let (value, rest) ← lexString pos (rest.length + 1) rest []
      return (.string value, rest)
    else if byte = 0x2D then
      if (rest.head?.map isAsciiDigit).getD false then lexInteger pos [byte] rest
      else error pos "expected digits after '-'"
    else if isAsciiDigit byte then lexInteger pos [] (byte :: rest)
    else if isAsciiAlphabetic byte || byte == 0x5F then do
      let word ← slice (byte :: rest.takeWhile isWordByte)
      return (.word (toAsciiUppercase word), rest.dropWhile isWordByte)
    else error pos ("unexpected character '" ++ String.singleton (Char.ofNat byte.toNat) ++ "'")

/-- The loop of `lex`, from the offset `pos`, where `bytes` are left. -/
def lexFrom : ℕ → ℕ → Bytes → Res (List Token)
  | _, pos, [] => .ok [⟨.done, pos⟩]
  | 0, _, _ :: _ => .error (.panic .stackOverflow)
  | fuel + 1, pos, byte :: rest =>
    if isAsciiWhitespace byte then lexFrom fuel (pos + 1) rest
    else do
      let (kind, rest') ← lexToken pos byte rest
      let tokens ← lexFrom fuel (pos + (rest.length + 1 - rest'.length)) rest'
      return ⟨kind, pos⟩ :: tokens

/-- `lex`. -/
def lex (source : String) : Res (List Token) := lexFrom (utf8 source).length 0 (utf8 source)

end NutDb.Sql
