/-
  The syntax of SQL (`src/sql/ast.rs`).

  Integers are the signed 64-bit ones, as a subtype of the integers; `print` and
  `parse` are their decimal texts, `toLe` and `ofLe` their little-endian bytes in
  two's complement.
-/
import NutDb.Lib.Text

namespace NutDb.Sql

open Lib

/-! ## Signed integers -/

/-- `i64`. -/
abbrev I64 := { n : ℤ // -2 ^ 63 ≤ n ∧ n < 2 ^ 63 }

namespace I64

/-- `i64::to_string`. -/
def print (n : I64) : String :=
  if n.val < 0 then "-" ++ n.val.natAbs.repr else n.val.natAbs.repr

/-- `i64::from_str`, on digits with a minus sign before them or not. -/
def parse (s : String) : Option I64 := do
  let n ← match s.toList with
    | '-' :: digits => (ofDigits digits).map fun n => -(n : ℤ)
    | '+' :: digits => (ofDigits digits).map fun n => (n : ℤ)
    | digits => (ofDigits digits).map fun n => (n : ℤ)
  if h : -2 ^ 63 ≤ n ∧ n < 2 ^ 63 then some ⟨n, h⟩ else none

/-- The 64 bits of a signed integer, in two's complement. -/
def unwrap (n : I64) : U64 := ⟨(if n.val < 0 then n.val + 2 ^ 64 else n.val).toNat, by
  obtain ⟨n, h1, h2⟩ := n
  simp only
  split_ifs <;> omega⟩

/-- `i64::to_le_bytes`. -/
def toLe (n : I64) : Bytes := n.unwrap.toLe

/-- The signed integer that is represented by 64 bits. -/
def wrap (n : U64) : I64 :=
  if h : n.val < 2 ^ 63 then ⟨n.val, by omega⟩ else ⟨n.val - 2 ^ 64, by have := n.isLt; omega⟩

/-- `i64::from_le_bytes`. -/
def ofLe (bytes : Bytes) : I64 := wrap (U64.ofLe bytes)

/-- **A printed integer is read back.** -/
@[simp] theorem parse_print (n : I64) : parse n.print = some n := by
  obtain ⟨n, hn⟩ := n
  obtain ⟨c, cs, hcs, hc⟩ := exists_repr n.natAbs
  have hdigits := ofDigits_repr n.natAbs
  unfold parse print
  simp only
  split_ifs with hneg
  · have hlist : ("-" ++ n.natAbs.repr).toList = '-' :: n.natAbs.repr.toList := by simp
    have habs : -(n.natAbs : ℤ) = n := by omega
    simp only [hlist, hdigits, Option.bind_eq_bind, Option.pure_def, Option.bind_some, Option.map_some, habs]
    exact dif_pos hn
  · have habs : (n.natAbs : ℤ) = n := by omega
    rw [hcs] at hdigits ⊢
    split
    · rename_i digits heq
      obtain rfl := (List.cons.inj heq).1
      exact absurd hc (by decide)
    · rename_i digits heq
      obtain rfl := (List.cons.inj heq).1
      exact absurd hc (by decide)
    · simp only [hdigits, Option.bind_eq_bind, Option.pure_def, Option.bind_some, Option.map_some, habs]
      exact dif_pos hn

@[simp] theorem length_toLe (n : I64) : n.toLe.length = 8 := by rw [toLe, U64.length_toLe]

theorem wrap_val (n : U64) : (wrap n).val = if n.val < 2 ^ 63 then (n.val : ℤ) else n.val - 2 ^ 64 := by
  unfold wrap
  split_ifs <;> rfl

theorem wrap_unwrap (n : I64) : wrap n.unwrap = n := by
  obtain ⟨n, h1, h2⟩ := n
  apply Subtype.ext
  rw [wrap_val]
  simp only [unwrap]
  split_ifs <;> omega

@[simp] theorem ofLe_toLe (n : I64) : ofLe n.toLe = n := by
  rw [ofLe, toLe, U64.ofLe_toLe, wrap_unwrap]

theorem unwrap_wrap (n : U64) : unwrap (wrap n) = n := by
  have hlt := n.isLt
  apply Fin.ext
  simp only [unwrap, wrap_val]
  split_ifs <;> omega

theorem toLe_ofLe {bytes : Bytes} (h : bytes.length = 8) : (ofLe bytes).toLe = bytes := by
  rw [toLe, ofLe, unwrap_wrap, U64.toLe_ofLe h]

end I64

/-! ## Statements -/

/-- `DataType`. -/
inductive DataType where
  | integer
  | text
  | boolean
  deriving DecidableEq, Repr

/-- `Value`. -/
inductive Value where
  | null
  | integer (value : I64)
  | text (value : String)
  | boolean (value : Bool)
  deriving DecidableEq, Repr

/-- The variants in the order in which they are declared. -/
def Value.variant : Value → ℕ
  | null => 0
  | integer _ => 1
  | text _ => 2
  | boolean _ => 3

/-- `Value::cmp`, as derived: by variant, and then by content. -/
def Value.cmp : Value → Value → Ordering
  | integer a, integer b => compare a b
  | text a, text b => compare a b
  | boolean a, boolean b => compare a b
  | a, b => compare a.variant b.variant

/-- `Value`'s `Display`. -/
def Value.display : Value → String
  | null => "NULL"
  | integer value => value.print
  | text value => value
  | boolean true => "true"
  | boolean false => "false"

/-- `ColumnDef`. -/
structure ColumnDef where
  name : String
  dataType : DataType
  primaryKey : Bool
  deriving DecidableEq, Repr

/-- `BinaryOp`. -/
inductive BinaryOp where
  | eq
  | ne
  | lt
  | le
  | gt
  | ge
  | and
  | or
  deriving DecidableEq, Repr

/-- `Expr`. -/
inductive Expr where
  | column (name : String)
  | literal (value : Value)
  | binary (op : BinaryOp) (left right : Expr)
  deriving DecidableEq, Repr

/-- `Projection`. -/
inductive Projection where
  | all
  | columns (names : List String)
  deriving DecidableEq, Repr

/-- `Select`; `orderBy` has the column and whether the order is ascending. -/
structure Select where
  table : String
  projection : Projection
  filter : Option Expr
  orderBy : Option (String × Bool)
  limit : Option ℕ
  deriving DecidableEq, Repr

/-- `Statement`. -/
inductive Statement where
  | createTable (table : String) (columns : List ColumnDef)
  | insert (table : String) (columns : List String) (values : List Value)
  | select (select : Select)
  | update (table : String) (assignments : List (String × Value)) (filter : Option Expr)
  | delete (table : String) (filter : Option Expr)
  | begin
  | commit
  | rollback
  | explain (select : Select)
  deriving DecidableEq, Repr

/-- `SqlResult`. -/
inductive SqlResult where
  | affected (count : ℕ)
  | rows (columns : List String) (rows : List (List Value))
  | begun
  | committed
  | rolledBack
  | explain (text : String)
  deriving DecidableEq, Repr

end NutDb.Sql
