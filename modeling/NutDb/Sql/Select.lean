/-
  What a `SELECT` returns.

  `Evaluates` is the meaning of expressions: comparisons with `NULL` are unknown,
  and `AND` and `OR` are the minimum and the maximum of three truth values.
  `Selected` says which rows a `SELECT` has to return, from all rows of its table
  in the order of their keys, without a word about how they are read.  The main
  result is that it returns these, by either access path (`select_selected`).

  The two paths do not fail on the same tables (`index_lookup_iff`).
-/
import NutDb.Lib.StableSort
import NutDb.Sql.Runs

namespace NutDb.Sql

open Lib Mvcc

/-! ## Three-valued logic -/

/-- Truth values, from the lowest to the highest. -/
inductive Truth where
  | no
  | unknown
  | yes
  deriving DecidableEq

namespace Truth

/-- The place in the order. -/
def rank : Truth → ℕ
  | no => 0
  | unknown => 1
  | yes => 2

theorem rank_injective : Function.Injective rank := by
  intro s t h
  cases s <;> cases t <;> first | rfl | cases h

instance : LinearOrder Truth := LinearOrder.lift' rank rank_injective

/-- The truth value as a value. -/
def value : Truth → Value
  | no => .boolean false
  | unknown => .null
  | yes => .boolean true

end Truth

/-- The order of the values of one type, with `NULL` below the others. -/
def Value.Le : Value → Value → Prop
  | .null, _ => True
  | .integer a, .integer b => a ≤ b
  | .text a, .text b => a ≤ b
  | .boolean a, .boolean b => a ≤ b
  | _, _ => False

/-- What a comparison says about two values of one type. -/
def BinaryOp.Holds : BinaryOp → Value → Value → Prop
  | .eq, a, b => a = b
  | .ne, a, b => a ≠ b
  | .lt, a, b => ¬ b.Le a
  | .le, a, b => a.Le b
  | .gt, a, b => ¬ a.Le b
  | .ge, a, b => b.Le a
  | .and, _, _ => False
  | .or, _, _ => False

/-- The comparisons. -/
def BinaryOp.Compares (op : BinaryOp) : Prop := op ≠ .and ∧ op ≠ .or

/-- **The meaning of expressions**: the value that an expression has in a row. -/
inductive Evaluates (schema : Schema) (row : Row) : Expr → Value → Prop
  | literal {value} : Evaluates schema row (.literal value) value
  | column {name i value} : schema.columnIndex name = some i → row[i]? = some value →
      Evaluates schema row (.column name) value
  | unknown {op left right a b} : op.Compares → Evaluates schema row left a →
      Evaluates schema row right b → a = .null ∨ b = .null → Evaluates schema row (.binary op left right) .null
  | compared {op left right a b} {dataType : DataType} {holds : Bool} : op.Compares →
      Evaluates schema row left a → Evaluates schema row right b → a ≠ .null → b ≠ .null →
      a.hasType dataType = true → b.hasType dataType = true → (holds = true ↔ op.Holds a b) →
      Evaluates schema row (.binary op left right) (.boolean holds)
  | and {left right} {s t : Truth} : Evaluates schema row left s.value →
      Evaluates schema row right t.value → Evaluates schema row (.binary .and left right) (min s t).value
  | or {left right} {s t : Truth} : Evaluates schema row left s.value →
      Evaluates schema row right t.value → Evaluates schema row (.binary .or left right) (max s t).value

/-! ## Evaluation -/

theorem truth_eq_ok {v : Value} {b : Option Bool} : truth v = .ok b ↔
    ∃ t : Truth, v = t.value ∧ b = match t with
      | .no => some false
      | .unknown => none
      | .yes => some true := by
  constructor
  · intro h
    cases v with
    | null => exact ⟨.unknown, rfl, (Except.ok.inj h).symm⟩
    | integer _ => cases h
    | text _ => cases h
    | boolean value =>
      cases value with
      | false => exact ⟨.no, rfl, (Except.ok.inj h).symm⟩
      | true => exact ⟨.yes, rfl, (Except.ok.inj h).symm⟩
  · rintro ⟨t, rfl, rfl⟩
    cases t <;> rfl

theorem logicAnd_value (s t : Truth) : logicAnd s.value t.value = .ok (min s t).value := by
  cases s <;> cases t <;> rfl

theorem logicOr_value (s t : Truth) : logicOr s.value t.value = .ok (max s t).value := by
  cases s <;> cases t <;> rfl

theorem logicAnd_eq_ok {a b v : Value} : logicAnd a b = .ok v ↔
    ∃ s t : Truth, a = s.value ∧ b = t.value ∧ v = (min s t).value := by
  constructor
  · intro h
    obtain ⟨s, hs, h'⟩ := Res.bind_eq_ok.1 h
    obtain ⟨t, ht, -⟩ := Res.bind_eq_ok.1 h'
    obtain ⟨s, rfl, -⟩ := truth_eq_ok.1 hs
    obtain ⟨t, rfl, -⟩ := truth_eq_ok.1 ht
    rw [logicAnd_value] at h
    exact ⟨s, t, rfl, rfl, (Except.ok.inj h).symm⟩
  · rintro ⟨s, t, rfl, rfl, rfl⟩
    exact logicAnd_value s t

theorem logicOr_eq_ok {a b v : Value} : logicOr a b = .ok v ↔
    ∃ s t : Truth, a = s.value ∧ b = t.value ∧ v = (max s t).value := by
  constructor
  · intro h
    obtain ⟨s, hs, h'⟩ := Res.bind_eq_ok.1 h
    obtain ⟨t, ht, -⟩ := Res.bind_eq_ok.1 h'
    obtain ⟨s, rfl, -⟩ := truth_eq_ok.1 hs
    obtain ⟨t, rfl, -⟩ := truth_eq_ok.1 ht
    rw [logicOr_value] at h
    exact ⟨s, t, rfl, rfl, (Except.ok.inj h).symm⟩
  · rintro ⟨s, t, rfl, rfl, rfl⟩
    exact logicOr_value s t

/-- Values of one type can be compared. -/
structure Comparable (a b : Value) : Prop where
  left : a ≠ .null
  right : b ≠ .null
  type : ∃ dataType, a.hasType dataType = true ∧ b.hasType dataType = true

theorem order_eq_ok {a b : Value} {o : Ordering} : order a b = .ok o ↔
    Comparable a b ∧ o = a.cmp b := by
  constructor
  · intro h
    cases a <;> cases b <;> cases h <;>
      exact ⟨⟨by simp, by simp, by first | exact ⟨.integer, rfl, rfl⟩ | exact ⟨.text, rfl, rfl⟩ |
        exact ⟨.boolean, rfl, rfl⟩⟩, rfl⟩
  · rintro ⟨⟨ha, hb, dataType, hta, htb⟩, rfl⟩
    cases dataType <;> cases a <;> cases b <;> simp_all [Value.hasType, order, Value.cmp]

section Order
variable {a b : Value} {dataType : DataType}

theorem cmp_ne_gt (ha : a.hasType dataType = true) (hb : b.hasType dataType = true) :
    a.cmp b ≠ .gt ↔ a.Le b := by
  cases dataType <;> cases a <;> cases b <;>
    simp_all [Value.hasType, Value.cmp, Value.Le, Value.variant, compare_le_iff_le]

theorem cmp_ne_lt (ha : a.hasType dataType = true) (hb : b.hasType dataType = true) :
    a.cmp b ≠ .lt ↔ b.Le a := by
  cases dataType <;> cases a <;> cases b <;>
    simp_all [Value.hasType, Value.cmp, Value.Le, Value.variant, compare_ge_iff_ge]

theorem cmp_eq_eq (ha : a.hasType dataType = true) (hb : b.hasType dataType = true) :
    a.cmp b = .eq ↔ a = b := by
  cases dataType <;> cases a <;> cases b <;>
    simp_all [Value.hasType, Value.cmp, Value.variant, compare_eq_iff_eq]

theorem compareForSort_eq (a b : Value) : compareForSort a b = a.cmp b := by
  cases a <;> cases b <;> rfl

end Order

theorem boolean_eq_ok {x : Bool} {P : Prop} (h : x = true ↔ P) {v : Value} :
    (pure (.boolean x) : Res Value) = .ok v ↔ ∃ holds, (holds = true ↔ P) ∧ v = .boolean holds := by
  constructor
  · intro hv
    exact ⟨x, h, (Except.ok.inj hv).symm⟩
  · rintro ⟨holds, hholds, rfl⟩
    rw [Bool.eq_iff_iff.2 (h.trans hholds.symm)]
    rfl

/-- The comparison of values of one type. -/
theorem compareValues_of_comparable {op : BinaryOp} {a b : Value} {v : Value} (hop : op.Compares)
    (h : Comparable a b) : compareValues op a b = .ok v ↔
      ∃ holds, (holds = true ↔ op.Holds a b) ∧ v = .boolean holds := by
  have horder : order a b = .ok (a.cmp b) := order_eq_ok.2 ⟨h, rfl⟩
  rw [compareValues, if_neg (by simp [h.left, h.right]), horder, Res.ok_bind]
  obtain ⟨-, -, dataType, ha, hb⟩ := h
  obtain ⟨hand, hor⟩ := hop
  cases op with
  | and => exact absurd rfl hand
  | or => exact absurd rfl hor
  | eq => exact boolean_eq_ok (beq_iff_eq.trans (cmp_eq_eq ha hb))
  | ne => exact boolean_eq_ok (bne_iff_ne.trans (cmp_eq_eq ha hb).not)
  | lt => exact boolean_eq_ok (beq_iff_eq.trans (not_not.symm.trans (cmp_ne_lt ha hb).not))
  | le => exact boolean_eq_ok (bne_iff_ne.trans (cmp_ne_gt ha hb))
  | gt => exact boolean_eq_ok (beq_iff_eq.trans (not_not.symm.trans (cmp_ne_gt ha hb).not))
  | ge => exact boolean_eq_ok (bne_iff_ne.trans (cmp_ne_lt ha hb))

/-- What a comparison returns, if it does. -/
theorem compareValues_eq_ok {op : BinaryOp} {a b v : Value} (hop : op.Compares) :
    compareValues op a b = .ok v ↔ (a = .null ∨ b = .null) ∧ v = .null ∨
      Comparable a b ∧ ∃ holds, (holds = true ↔ op.Holds a b) ∧ v = .boolean holds := by
  by_cases hnull : a = .null ∨ b = .null
  · have hnot : ¬ Comparable a b := fun h => hnull.elim h.left h.right
    rw [compareValues, if_pos hnull]
    simp [hnull, hnot, eq_comm]
  · constructor
    · intro h
      have horder := h
      rw [compareValues, if_neg hnull] at horder
      obtain ⟨o, ho, -⟩ := Res.bind_eq_ok.1 horder
      obtain ⟨hcomp, -⟩ := order_eq_ok.1 ho
      exact Or.inr ⟨hcomp, (compareValues_of_comparable hop hcomp).1 h⟩
    · rintro (⟨hnull', -⟩ | ⟨hcomp, hholds⟩)
      · exact absurd hnull' hnull
      · exact (compareValues_of_comparable hop hcomp).2 hholds

theorem hasType_unique {a : Value} {s t : DataType} (h : a ≠ .null) (hs : a.hasType s = true)
    (ht : a.hasType t = true) : s = t := by
  cases a <;> cases s <;> cases t <;> simp_all [Value.hasType]

theorem comparable_self {a : Value} (h : a ≠ .null) : Comparable a a := by
  refine ⟨h, h, ?_⟩
  cases a with
  | null => exact absurd rfl h
  | integer _ => exact ⟨.integer, rfl, rfl⟩
  | text _ => exact ⟨.text, rfl, rfl⟩
  | boolean _ => exact ⟨.boolean, rfl, rfl⟩

theorem Comparable.symm {a b : Value} (h : Comparable a b) : Comparable b a := by
  obtain ⟨ha, hb, dataType, hta, htb⟩ := h
  exact ⟨hb, ha, dataType, htb, hta⟩

/-- The sides of an equality can be exchanged. -/
theorem compareValues_eq_comm {a b v : Value} :
    compareValues .eq a b = .ok v ↔ compareValues .eq b a = .ok v := by
  have himp : ∀ {a b : Value}, compareValues .eq a b = .ok v → compareValues .eq b a = .ok v := by
    intro a b h
    have hop : BinaryOp.Compares .eq := by simp [BinaryOp.Compares]
    rw [compareValues_eq_ok hop] at h ⊢
    rcases h with ⟨hnull, rfl⟩ | ⟨hcomp, holds, hholds, rfl⟩
    · exact Or.inl ⟨hnull.symm, rfl⟩
    · exact Or.inr ⟨hcomp.symm, holds, hholds.trans eq_comm, rfl⟩
  exact ⟨himp, himp⟩

/-- When an equality is true. -/
theorem compareValues_eq_true {a b : Value} :
    compareValues .eq a b = .ok (.boolean true) ↔ a = b ∧ a ≠ .null := by
  rw [compareValues_eq_ok (by simp [BinaryOp.Compares])]
  constructor
  · rintro (⟨-, h⟩ | ⟨hcomp, holds, hholds, h⟩)
    · cases h
    · cases h
      exact ⟨hholds.1 rfl, hcomp.left⟩
  · rintro ⟨rfl, hne⟩
    exact Or.inr ⟨comparable_self hne, true, by simp [BinaryOp.Holds], rfl⟩

section Rows
variable {schema : Schema} {row : Row} {expr : Expr} {v : Value}

theorem namedColumn_eq_ok {name : String} {i : ℕ} : namedColumn schema name = .ok i ↔
    schema.columnIndex name = some i := Res.ofOption_eq_ok

/-- A comparison, from the values of its sides. -/
theorem evaluates_compare {op : BinaryOp} {left right : Expr} (hop : op.Compares) :
    Evaluates schema row (.binary op left right) v ↔ ∃ a b, Evaluates schema row left a ∧
      Evaluates schema row right b ∧ compareValues op a b = .ok v := by
  constructor
  · intro h
    cases h with
    | unknown _ ha hb hnull => exact ⟨_, _, ha, hb, (compareValues_eq_ok hop).2 (Or.inl ⟨hnull, rfl⟩)⟩
    | compared _ ha hb hna hnb hta htb hholds =>
      exact ⟨_, _, ha, hb, (compareValues_eq_ok hop).2 (Or.inr ⟨⟨hna, hnb, _, hta, htb⟩, _, hholds, rfl⟩)⟩
    | and _ _ => exact absurd rfl hop.1
    | or _ _ => exact absurd rfl hop.2
  · rintro ⟨a, b, ha, hb, hv⟩
    rcases (compareValues_eq_ok hop).1 hv with ⟨hnull, rfl⟩ | ⟨⟨hna, hnb, _, hta, htb⟩, holds, hholds, rfl⟩
    · exact .unknown hop ha hb hnull
    · exact .compared hop ha hb hna hnb hta htb hholds

/-- **The code evaluates expressions.** -/
theorem eval_eq_ok : eval row schema expr = .ok v ↔ Evaluates schema row expr v := by
  induction expr generalizing v with
  | literal value =>
    constructor
    · intro h
      cases h
      exact .literal
    · rintro ⟨⟩
      rfl
  | column name =>
    simp only [eval, Res.bind_eq_ok, namedColumn_eq_ok, Res.get_eq_ok]
    constructor
    · rintro ⟨i, hi, hv⟩
      exact .column hi hv
    · rintro (_ | ⟨hi, hv⟩)
      exact ⟨_, hi, hv⟩
  | binary op left right ihl ihr =>
    simp only [eval, Res.bind_eq_ok, ihl, ihr]
    have hcompare : op.Compares → ((∃ a, Evaluates schema row left a ∧ ∃ b, Evaluates schema row right b ∧
        compareValues op a b = .ok v) ↔ Evaluates schema row (.binary op left right) v) := by
      intro hop
      rw [evaluates_compare hop]
      simp only [exists_and_left]
    cases op with
    | and =>
      simp only [logicAnd_eq_ok]
      constructor
      · rintro ⟨_, hl, _, hr, s, t, rfl, rfl, rfl⟩
        exact .and hl hr
      · intro h
        cases h with
        | and hl hr => exact ⟨_, hl, _, hr, _, _, rfl, rfl, rfl⟩
        | unknown hop => exact absurd rfl hop.1
        | compared hop => exact absurd rfl hop.1
    | or =>
      simp only [logicOr_eq_ok]
      constructor
      · rintro ⟨_, hl, _, hr, s, t, rfl, rfl, rfl⟩
        exact .or hl hr
      · intro h
        cases h with
        | or hl hr => exact ⟨_, hl, _, hr, _, _, rfl, rfl, rfl⟩
        | unknown hop => exact absurd rfl hop.2
        | compared hop => exact absurd rfl hop.2
    | eq => exact hcompare (by simp [BinaryOp.Compares])
    | ne => exact hcompare (by simp [BinaryOp.Compares])
    | lt => exact hcompare (by simp [BinaryOp.Compares])
    | le => exact hcompare (by simp [BinaryOp.Compares])
    | gt => exact hcompare (by simp [BinaryOp.Compares])
    | ge => exact hcompare (by simp [BinaryOp.Compares])

/-! ## What a query asks for -/

/-- The row passes the filter. -/
def Keeps (schema : Schema) (filter : Option Expr) (row : Row) : Prop :=
  ∀ expr, filter = some expr → Evaluates schema row expr (.boolean true)

/-- The left row may stand before the right one. -/
def Precedes (i : ℕ) (ascending : Bool) (left right : Row) : Prop :=
  ∀ a b, left[i]? = some a → right[i]? = some b → if ascending then a.Le b else b.Le a

/-- The rows in the order that the query asks for. -/
def Ordered (schema : Schema) (rows sorted : List Row) : Option (String × Bool) → Prop
  | none => sorted = rows
  | some (column, ascending) =>
    ∃ i, schema.columnIndex column = some i ∧ StableSort (Precedes i ascending) rows sorted

/-- The columns of the result. -/
def Projection.names (schema : Schema) : Projection → List String
  | .all => schema.columns.map ColumnDef.name
  | .columns names => names

/-- What the result has of a row. -/
def Projects (schema : Schema) (names : List String) (row out : Row) : Prop :=
  List.Forall₂ (fun name v => ∃ i, schema.columnIndex name = some i ∧ row[i]? = some v) names out

open Classical in
/-- **The result of a query** on a table that has these rows. -/
def Selected (schema : Schema) (select : Select) (table : List Row) (columns : List String)
    (rows : List Row) : Prop :=
  columns = select.projection.names schema ∧
  ∃ sorted, Ordered schema (table.filter fun row => Keeps schema select.filter row) sorted select.orderBy ∧
    List.Forall₂ (Projects schema columns) ((select.limit.map sorted.take).getD sorted) rows

/-! ## The result of the code -/

theorem matchesFilter_eq_ok {filter : Option Expr} {kept : Bool}
    (h : matchesFilter filter row schema = .ok kept) : kept = true ↔ Keeps schema filter row := by
  cases filter with
  | none =>
    cases h
    simp [Keeps]
  | some expr =>
    obtain ⟨v, hv, hkept⟩ := Res.bind_eq_ok.1 h
    obtain rfl : (v == .boolean true) = kept := Except.ok.inj hkept
    rw [beq_iff_eq]
    constructor
    · rintro rfl expr' h'
      cases h'
      exact eval_eq_ok.1 hv
    · intro hkeeps
      have htrue := eval_eq_ok.2 (hkeeps expr rfl)
      exact Except.ok.inj (hv.symm.trans htrue)

open Classical in
/-- The rows that are kept. -/
theorem filterRows_eq_ok {filter : Option Expr} {rows kept : List Row}
    (h : filterRows filter schema rows = .ok kept) :
    kept = rows.filter fun row => Keeps schema filter row := by
  induction rows generalizing kept with
  | nil =>
    cases h
    rfl
  | cons row rows ih =>
    obtain ⟨b, hb, h⟩ := Res.bind_eq_ok.1 h
    obtain ⟨rest, hrest, h⟩ := Res.bind_eq_ok.1 h
    cases h
    have hkeeps := matchesFilter_eq_ok hb
    rw [List.filter_cons, ih hrest]
    simp only [decide_eq_true_eq, ← hkeeps]

/-- Rows that pass the filter are all kept. -/
theorem filterRows_of_keeps {filter : Option Expr} {rows : List Row}
    (h : ∀ row ∈ rows, Keeps schema filter row) : filterRows filter schema rows = .ok rows := by
  induction rows with
  | nil => rfl
  | cons row rows ih =>
    have hkept : matchesFilter filter row schema = .ok true := by
      cases filter with
      | none => rfl
      | some expr =>
        rw [matchesFilter, eval_eq_ok.2 (h row List.mem_cons_self expr rfl)]
        rfl
    rw [filterRows, hkept, ih fun row' hrow' => h row' (List.mem_cons_of_mem _ hrow')]
    rfl

theorem Value.Le.trans {a b c : Value} (hab : a.Le b) (hbc : b.Le c) : a.Le c := by
  cases a <;> cases b <;> cases c <;> simp_all [Value.Le]
  all_goals exact le_trans hab hbc

theorem Value.Le.total {a b : Value} {dataType : DataType} (ha : a.hasType dataType = true)
    (hb : b.hasType dataType = true) : a.Le b ∨ b.Le a := by
  cases dataType <;> cases a <;> cases b <;> simp_all [Value.hasType, Value.Le]
  all_goals exact le_total _ _

theorem precedes_iff {i : ℕ} {ascending : Bool} {left right : Row} {a b : Value}
    (hl : left[i]? = some a) (hr : right[i]? = some b) :
    Precedes i ascending left right ↔ if ascending then a.Le b else b.Le a := by
  constructor
  · intro h
    exact h a b hl hr
  · intro h a' b' ha' hb'
    obtain rfl : a = a' := Option.some.inj (hl.symm.trans ha')
    obtain rfl : b = b' := Option.some.inj (hr.symm.trans hb')
    exact h

/-- The comparison of the sort, for rows that have a value of the column's type. -/
theorem sortsBefore_iff {i : ℕ} {ascending : Bool} {left right : Row} {a b : Value}
    {dataType : DataType} (hl : left[i]? = some a) (hr : right[i]? = some b)
    (ha : a.hasType dataType = true) (hb : b.hasType dataType = true) :
    sortsBefore i ascending left right = true ↔ Precedes i ascending left right := by
  have hswap : (a.cmp b).swap ≠ .gt ↔ b.Le a := by
    rw [← cmp_ne_lt ha hb]
    cases a.cmp b <;> simp
  rw [precedes_iff hl hr]
  simp only [sortsBefore, hl, hr, compareForSort_eq, bne_iff_ne]
  cases ascending with
  | true => exact cmp_ne_gt ha hb
  | false => exact hswap

theorem matches_getElem? (h : Matches schema row) {i : ℕ} {column : ColumnDef}
    (hi : schema.columns[i]? = some column) : ∃ v, row[i]? = some v ∧ v.hasType column.dataType = true := by
  obtain ⟨hlt, rfl⟩ := List.getElem?_eq_some_iff.1 hi
  have hlt' : i < row.length := by rwa [h.length_eq]
  exact ⟨row[i], List.getElem?_eq_getElem hlt', h.get hlt' hlt⟩

/-- **The rows are sorted**, and the sort is stable. -/
theorem sortRows_eq_ok {rows sorted : List Row} {orderBy : Option (String × Bool)}
    (hrows : ∀ row ∈ rows, Matches schema row) (h : sortRows schema rows orderBy = .ok sorted) :
    Ordered schema rows sorted orderBy := by
  rcases orderBy with _ | ⟨column, ascending⟩
  · cases h
    rfl
  obtain ⟨i, hi, h⟩ := Res.bind_eq_ok.1 h
  obtain rfl : rows.mergeSort (sortsBefore i ascending) = sorted := by
    by_cases hlen : rows.length ≤ 1
    · rw [if_pos hlen] at h
      exact Except.ok.inj h
    · rw [if_neg hlen] at h
      obtain ⟨values, -, hsorted⟩ := Res.bind_eq_ok.1 h
      exact Except.ok.inj hsorted
  have hi := Res.ofOption_eq_ok.1 hi
  obtain ⟨hlt, -⟩ := List.findIdx?_eq_some_iff_getElem.1 hi
  have hval : ∀ row ∈ rows, ∃ v, row[i]? = some v ∧ v.hasType schema.columns[i].dataType = true :=
    fun row hrow => matches_getElem? (hrows row hrow) (List.getElem?_eq_getElem hlt)
  refine ⟨i, hi, stableSort_mergeSort ?_ ?_ ?_⟩
  · intro l hl r hr
    obtain ⟨a, ha, hta⟩ := hval l hl
    obtain ⟨b, hb, htb⟩ := hval r hr
    exact sortsBefore_iff ha hb hta htb
  · intro l hl m hm r hr hlm hmr a c ha hc
    obtain ⟨b, hb, -⟩ := hval m hm
    have hab := hlm a b ha hb
    have hbc := hmr b c hb hc
    cases ascending with
    | true => exact hab.trans hbc
    | false => exact hbc.trans hab
  · intro l hl r hr
    obtain ⟨a, ha, hta⟩ := hval l hl
    obtain ⟨b, hb, htb⟩ := hval r hr
    rw [precedes_iff ha hb, precedes_iff hb ha]
    cases ascending with
    | true => exact Value.Le.total hta htb
    | false => exact Value.Le.total htb hta

theorem mapM_eq_ok {α β : Type} {f : α → Res β} {l : List α} {l' : List β} :
    l.mapM f = .ok l' ↔ List.Forall₂ (fun a b => f a = .ok b) l l' := by
  induction l generalizing l' with
  | nil => simp [eq_comm]
  | cons a l ih =>
    rw [List.mapM_cons, Res.bind_eq_ok]
    simp only [Res.bind_eq_ok, ih]
    constructor
    · rintro ⟨b, hb, rest, hrest, h⟩
      cases h
      exact .cons hb hrest
    · rintro (_ | ⟨hb, hrest⟩)
      exact ⟨_, hb, _, hrest, rfl⟩

theorem exists_mapM_eq_ok {α β : Type} {f : α → Res β} {l : List α} :
    (∃ l', l.mapM f = .ok l') ↔ ∀ a ∈ l, ∃ b, f a = .ok b := by
  simp only [mapM_eq_ok]
  induction l with
  | nil => simp
  | cons a l ih =>
    rw [List.forall_mem_cons, ← ih]
    constructor
    · rintro ⟨_, _ | ⟨hb, hrest⟩⟩
      exact ⟨⟨_, hb⟩, _, hrest⟩
    · rintro ⟨⟨b, hb⟩, rest, hrest⟩
      exact ⟨b :: rest, .cons hb hrest⟩

/-- The columns of the result are found by their names. -/
theorem projection_eq_ok {p : Projection} {columns : List String} {indexes : List ℕ}
    (hv : schema.Valid) (h : projection schema p = .ok (columns, indexes)) :
    columns = p.names schema ∧
      List.Forall₂ (fun name i => schema.columnIndex name = some i) columns indexes := by
  cases p with
  | all =>
    cases h
    refine ⟨rfl, List.forall₂_iff_get.2 ⟨by simp, fun i h1 h2 => ?_⟩⟩
    have hlt : i < schema.columns.length := by simpa using h2
    simpa using hv.columnIndex (List.getElem?_eq_getElem hlt)
  | columns names =>
    obtain ⟨is, his, h⟩ := Res.bind_eq_ok.1 h
    cases h
    exact ⟨rfl, (mapM_eq_ok.1 his).imp fun name i hi => namedColumn_eq_ok.1 hi⟩

theorem projects_of_indexes {names : List String} {indexes : List ℕ} {out : Row}
    (hi : List.Forall₂ (fun name i => schema.columnIndex name = some i) names indexes)
    (hout : List.Forall₂ (fun i v => row[i]? = some v) indexes out) : Projects schema names row out := by
  induction hi generalizing out with
  | nil =>
    cases hout
    exact .nil
  | cons h _ ih =>
    obtain _ | ⟨hv, hout⟩ := hout
    exact .cons ⟨_, h, hv⟩ (ih hout)

/-- **What the code does with the rows that it has read.** -/
theorem finishSelect_eq_ok {select : Select} {table : List Row} {result : SqlResult} (hv : schema.Valid)
    (hrows : ∀ row ∈ table, Matches schema row) (h : finishSelect schema select table = .ok result) :
    ∃ columns rows, result = .rows columns rows ∧ Selected schema select table columns rows := by
  obtain ⟨kept, hkept, h⟩ := Res.bind_eq_ok.1 h
  obtain ⟨sorted, hsorted, h⟩ := Res.bind_eq_ok.1 h
  obtain ⟨⟨columns, indexes⟩, hproj, h⟩ := Res.bind_eq_ok.1 h
  obtain ⟨rows, hout, hresult⟩ := Res.bind_eq_ok.1 h
  obtain ⟨hcolumns, hindexes⟩ := projection_eq_ok hv hproj
  rw [filterRows_eq_ok hkept] at hsorted
  refine ⟨columns, rows, (Except.ok.inj hresult).symm, hcolumns, sorted, ?_, ?_⟩
  · exact sortRows_eq_ok (fun row hrow => hrows row (List.mem_filter.1 hrow).1) hsorted
  · refine (mapM_eq_ok.1 hout).imp fun row out hrow => projects_of_indexes hindexes ?_
    exact (mapM_eq_ok.1 hrow).imp fun i v hi => Res.get_eq_ok.1 hi

end Rows

/-! ## Access paths -/

section Access
variable {schemas : String → Option Schema} {m : Tables} {schema : Schema} {table : String}
  {i : ℕ} {column : ColumnDef} {expr : Expr} {value : Value} {row : Row}

/-- The filters for which the planner chooses the lookup. -/
theorem primaryEquality_eq_some {name : String} : primaryEquality expr name = some value ↔
    expr = .binary .eq (.column name) (.literal value) ∨
      expr = .binary .eq (.literal value) (.column name) := by
  constructor
  · intro h
    unfold primaryEquality at h
    split at h
    · split_ifs at h with heq
      cases h
      subst heq
      exact Or.inl rfl
    · split_ifs at h with heq
      cases h
      subst heq
      exact Or.inr rfl
    · cases h
  · rintro (rfl | rfl) <;> simp [primaryEquality]

/-- Such a filter compares the primary value of a row. -/
theorem evaluates_primaryEquality (hv : schema.Valid) (hp : schema.Primary i column)
    (h : primaryEquality expr column.name = some value) {w : Value} :
    Evaluates schema row expr w ↔ ∃ v, row[i]? = some v ∧ compareValues .eq v value = .ok w := by
  have hcol : ∀ v, Evaluates schema row (.column column.name) v ↔ row[i]? = some v := by
    intro v
    constructor
    · rintro (_ | ⟨hi, hrow⟩)
      rw [hv.columnIndex hp.column] at hi
      cases hi
      exact hrow
    · exact .column (hv.columnIndex hp.column)
  have hlit : ∀ v, Evaluates schema row (.literal value) v ↔ v = value := by
    intro v
    constructor
    · rintro ⟨⟩
      rfl
    · rintro rfl
      exact .literal
  rcases primaryEquality_eq_some.1 h with rfl | rfl
  · rw [evaluates_compare (by simp [BinaryOp.Compares])]
    simp only [hcol, hlit, exists_and_left, exists_eq_left]
  · rw [evaluates_compare (by simp [BinaryOp.Compares])]
    simp only [hcol, hlit, exists_and_left, exists_eq_left, compareValues_eq_comm (a := value)]

/-- It keeps the row with this primary value. -/
theorem keeps_primaryEquality (hv : schema.Valid) (hp : schema.Primary i column)
    (h : primaryEquality expr column.name = some value) :
    Keeps schema (some expr) row ↔ row[i]? = some value ∧ value ≠ .null := by
  simp only [Keeps, Option.some.injEq, forall_eq', evaluates_primaryEquality hv hp h,
    compareValues_eq_true]
  constructor
  · rintro ⟨v, hrow, rfl, hne⟩
    exact ⟨hrow, hne⟩
  · rintro ⟨hrow, hne⟩
    exact ⟨value, hrow, rfl, hne⟩

/-- The access path of a query, for a table with this primary column. -/
def planned (column : ColumnDef) (select : Select) : Access :=
  ((select.filter.bind fun expr => primaryEquality expr column.name).map Access.primaryKey).getD .fullScan

theorem planSelect_eq (hp : schema.Primary i column) (select : Select) :
    (planSelect select schema).map Plan.access = .ok (planned column select) := by
  rw [planSelect, hp.index, Res.ok_bind, Res.get_of_getElem? hp.column]
  rfl

/-- The rows with a primary value are those under its key. -/
theorem primary_iff_key (h : Sound schemas m) (hs : schemas table = some schema)
    (hp : schema.Primary i column) {e : String × Row} (he : e ∈ rowsOf m schema) :
    e.2[i]? = some value ↔ e.1 = rowPrefix schema.name ++ hex (encodeValue value) := by
  obtain ⟨hrow, -⟩ := (mem_rowsOf h hs).1 he
  obtain ⟨v, hv, -, hkey⟩ := (rowKey_eq_ok hp).1 hrow.key
  rw [hv, hkey, Option.some.injEq]
  constructor
  · rintro rfl
    rfl
  · exact primary_of_key

/-- **The lookup** returns the rows of the table with this primary value. -/
theorem lookup_run (h : Sound schemas m) (hs : schemas table = some schema) (hp : schema.Primary i column)
    (hvalue : IsPrimary column value) :
    (accessRows schema (.primaryKey value) : Act Tables (List Row)).run m =
      (.ok (((rowsOf m schema).map Prod.snd).filter fun row => row[i]? = some value), m) := by
  obtain ⟨hv, rfl⟩ := h.valid hs
  have hkey : rowKeyForPrimary schema value = .ok (rowPrefix schema.name ++ hex (encodeValue value)) :=
    (rowKeyForPrimary_eq_ok hp).2 ⟨hvalue, rfl⟩
  have hpre : startsWith (rowPrefix schema.name ++ hex (encodeValue value)) (rowPrefix schema.name) = true :=
    (startsWith_rowPrefix hv.name hv.name).2 rfl
  have hfilter : ((rowsOf m schema).map Prod.snd).filter (fun row => row[i]? = some value) =
      ((rowsOf m schema).lookup (rowPrefix schema.name ++ hex (encodeValue value))).toList := by
    rw [List.filter_map, Function.comp_def, List.filter_congr fun e he =>
      decide_eq_decide.2 (primary_iff_key h hs hp he), filter_key (sortedKeys_rowsOf m schema),
      List.map_map, Function.comp_def, List.map_id']
  rw [hfilter]
  generalize rowPrefix schema.name ++ hex (encodeValue value) = key at hkey hpre
  rw [accessRows, if_neg hvalue.1, hkey, Act.run_bind_ok (Act.run_lift _ m), Act.run_bind_ok (get_run m key)]
  rcases hget : m.get key with _ | text
  · have hnone : (rowsOf m schema).lookup key = none := by
      refine Option.eq_none_iff_forall_not_mem.2 fun row hrow => ?_
      have := ((mem_rowsOf h hs).1 (mem_of_lookup hrow)).2
      rw [hget] at this
      cases this
    rw [hnone]
    rfl
  · obtain ⟨row, hrow, rfl, hdec⟩ := h.row_of_startsWith hs hget hpre
    have hsome : (rowsOf m schema).lookup key = some row :=
      lookup_of_mem (sortedKeys_rowsOf m schema) ((mem_rowsOf h hs).2 ⟨hrow, hget⟩)
    rw [hsome]
    simp only [hdec, Act.run_bind_ok (Act.run_lift (.ok row) m)]
    rfl

/-- The filter asks for a primary value that no row can have. -/
def Mistyped (column : ColumnDef) (select : Select) : Prop :=
  ∃ expr value, select.filter = some expr ∧ primaryEquality expr column.name = some value ∧
    value ≠ .null ∧ value.hasType column.dataType = false

open Classical in
/-- The rows that were read are enough for the query. -/
structure Suffices (schema : Schema) (select : Select) (table rows : List Row) : Prop where
  sub : ∀ row ∈ rows, row ∈ table
  filter : (rows.filter fun row => Keeps schema select.filter row) =
    table.filter fun row => Keeps schema select.filter row
  all : rows = table ∨ ∀ row ∈ rows, Keeps schema select.filter row

open Classical in
theorem suffices_filter {select : Select} {table : List Row} {p : Row → Bool}
    (h : ∀ row, p row = true ↔ Keeps schema select.filter row) :
    Suffices schema select table (table.filter p) := by
  refine ⟨fun row hrow => (List.mem_filter.1 hrow).1, ?_, Or.inr fun row hrow => ?_⟩
  · rw [List.filter_filter]
    refine List.filter_congr fun row _ => ?_
    rw [Bool.eq_iff_iff, Bool.and_eq_true, decide_eq_true_eq, h, and_self]
  · exact (h row).1 (List.mem_filter.1 hrow).2

/-- **The planned access path** fails on a value that no row can have, and reads enough otherwise. -/
theorem accessRows_planned (h : Sound schemas m) (hs : schemas table = some schema)
    (hp : schema.Primary i column) (select : Select) :
    (Mistyped column select ∧
      ∃ fault, (accessRows schema (planned column select) : Act Tables (List Row)).run m = (.error fault, m)) ∨
    (¬ Mistyped column select ∧ ∃ rows, Suffices schema select ((rowsOf m schema).map Prod.snd) rows ∧
      (accessRows schema (planned column select) : Act Tables (List Row)).run m = (.ok rows, m)) := by
  have hv := (h.valid hs).1
  rcases hplan : select.filter.bind fun expr => primaryEquality expr column.name with _ | value
  · have hnot : ¬ Mistyped column select := by
      rintro ⟨expr, value, hfilter, hprimary, -⟩
      rw [hfilter, Option.bind_some, hprimary] at hplan
      cases hplan
    refine Or.inr ⟨hnot, _, ⟨fun _ hrow => hrow, rfl, Or.inl rfl⟩, ?_⟩
    rw [planned, hplan, Option.map_none, Option.getD_none, accessRows, Act.run_bind_ok (allRows_run h hs)]
    rfl
  · obtain ⟨expr, hfilter, hprimary⟩ := Option.bind_eq_some_iff.1 hplan
    have hkeeps : ∀ row, Keeps schema select.filter row ↔ row[i]? = some value ∧ value ≠ .null := by
      intro row
      rw [hfilter]
      exact keeps_primaryEquality hv hp hprimary
    have hmis : Mistyped column select ↔ value ≠ .null ∧ value.hasType column.dataType = false := by
      constructor
      · rintro ⟨expr', value', hfilter', hprimary', hmis⟩
        rw [hfilter] at hfilter'
        cases hfilter'
        rw [hprimary] at hprimary'
        cases hprimary'
        exact hmis
      · exact fun hmis => ⟨expr, value, hfilter, hprimary, hmis⟩
    rw [hmis, planned, hplan, Option.map_some, Option.getD_some]
    by_cases hnull : value = .null
    · refine Or.inr ⟨fun hmis => hmis.1 hnull, _, suffices_filter (p := fun _ => false) fun row => ?_, ?_⟩
      · rw [hkeeps]
        simp [hnull]
      · rw [accessRows, if_pos hnull, List.filter_false]
        rfl
    rcases htype : value.hasType column.dataType with _ | _
    · refine Or.inl ⟨⟨hnull, rfl⟩, ?_⟩
      rw [accessRows, if_neg hnull]
      rcases hkey : rowKeyForPrimary schema value with fault | key
      · exact ⟨fault, rfl⟩
      · obtain ⟨⟨-, htype'⟩, -⟩ := (rowKeyForPrimary_eq_ok hp).1 hkey
        rw [htype] at htype'
        cases htype'
    · refine Or.inr ⟨by simp, _, suffices_filter (p := fun row => row[i]? = some value) fun row => ?_, ?_⟩
      · rw [hkeeps]
        simp [hnull]
      · exact lookup_run h hs hp ⟨hnull, htype⟩

/-! ## Queries on tables -/

theorem selectWith_run (h : Sound schemas m) {select : Select} (hs : schemas select.table = some schema)
    {access : Schema → Res Access} {a : Access} (ha : access schema = .ok a) :
    (selectWith access select : Act Tables SqlResult).run m =
      ((accessRows schema a >>= fun rows => Act.lift (finishSelect schema select rows)) :
        Act Tables SqlResult).run m := by
  have hload := loadSchema_run h select.table
  rw [hs] at hload
  rw [selectWith, Act.run_bind_ok hload, ha, Act.run_bind_ok (Act.run_lift _ m)]

theorem rowsOf_matches (h : Sound schemas m) (hs : schemas table = some schema) :
    ∀ row ∈ (rowsOf m schema).map Prod.snd, Matches schema row := by
  intro row hrow
  obtain ⟨e, he, rfl⟩ := List.mem_map.1 hrow
  exact ((mem_rowsOf h hs).1 he).1.fits

/-- A query that succeeds returns what it has to. -/
theorem selectRows_selected (h : Sound schemas m) {select : Select}
    (hs : schemas select.table = some schema) {result : SqlResult}
    (hrun : ((selectRows select : Act Tables SqlResult).run m).1 = .ok result) :
    ∃ columns rows, result = .rows columns rows ∧
      Selected schema select ((rowsOf m schema).map Prod.snd) columns rows := by
  have hv := (h.valid hs).1
  obtain ⟨i, column, hp⟩ := hv.primary
  rw [selectRows, selectWith_run h hs (planSelect_eq hp select)] at hrun
  obtain ⟨-, fault, hacc⟩ | ⟨-, rows, hrows, hacc⟩ := accessRows_planned h hs hp select
  · rw [Act.run_bind_error hacc] at hrun
    cases hrun
  · rw [Act.run_bind_ok hacc] at hrun
    have hmatch : ∀ row ∈ rows, Matches schema row := fun row hrow =>
      rowsOf_matches h hs row (hrows.sub row hrow)
    obtain ⟨columns, out, hresult, hcolumns, sorted, hsorted, hout⟩ := finishSelect_eq_ok hv hmatch hrun
    rw [hrows.filter] at hsorted
    exact ⟨columns, out, hresult, hcolumns, sorted, hsorted, hout⟩

end Access

/-! ## The two access paths -/

/-- The columns that the query names are there. -/
structure Select.Known (select : Select) (schema : Schema) : Prop where
  orderBy : ∀ column ascending, select.orderBy = some (column, ascending) →
    (schema.columnIndex column).isSome = true
  projection : ∀ names, select.projection = .columns names →
    ∀ name ∈ names, (schema.columnIndex name).isSome = true

section Paths
variable {schemas : String → Option Schema} {m : Tables} {schema : Schema} {select : Select}

theorem finishSelect_known {rows : List Row} {result : SqlResult}
    (h : finishSelect schema select rows = .ok result) : select.Known schema := by
  obtain ⟨kept, -, h⟩ := Res.bind_eq_ok.1 h
  obtain ⟨sorted, hsorted, h⟩ := Res.bind_eq_ok.1 h
  obtain ⟨⟨columns, indexes⟩, hproj, -⟩ := Res.bind_eq_ok.1 h
  refine ⟨fun column ascending horder => ?_, fun names hnames name hname => ?_⟩
  · rw [horder] at hsorted
    obtain ⟨i, hi, -⟩ := Res.bind_eq_ok.1 hsorted
    rw [Res.ofOption_eq_ok.1 hi, Option.isSome_some]
  · rw [hnames] at hproj
    obtain ⟨indexes', hindexes, -⟩ := Res.bind_eq_ok.1 hproj
    obtain ⟨i, hi⟩ := exists_mapM_eq_ok.1 ⟨_, hindexes⟩ name hname
    rw [namedColumn_eq_ok.1 hi, Option.isSome_some]

/-- A query on no rows. -/
theorem finishSelect_nil (h : select.Known schema) :
    finishSelect schema select [] = .ok (.rows (select.projection.names schema) []) := by
  obtain ⟨table, p, filter, orderBy, limit⟩ := select
  have hsort : sortRows schema [] orderBy = .ok [] := by
    rcases orderBy with _ | ⟨column, ascending⟩
    · rfl
    · obtain ⟨i, hi⟩ := Option.isSome_iff_exists.1 (h.orderBy column ascending rfl)
      simp [sortRows, hi]
  have hproj : ∃ indexes, projection schema p = .ok (p.names schema, indexes) := by
    cases p with
    | all => exact ⟨_, rfl⟩
    | columns names =>
      obtain ⟨indexes, hindexes⟩ : ∃ indexes, names.mapM (namedColumn schema) = .ok indexes := by
        refine exists_mapM_eq_ok.2 fun name hname => ?_
        obtain ⟨i, hi⟩ := Option.isSome_iff_exists.1 (h.projection names rfl name hname)
        exact ⟨i, namedColumn_eq_ok.2 hi⟩
      exact ⟨indexes, by rw [projection, hindexes]; rfl⟩
  obtain ⟨indexes, hproj⟩ := hproj
  have hlimit : (limit.map ([] : List Row).take).getD [] = [] := by
    cases limit <;> simp
  simp only [finishSelect, filterRows, Res.ok_bind, hsort, hproj, hlimit]
  rfl

/-- With a value that no row can have, the full scan fails on the first row. -/
theorem filterRows_mistyped (hv : schema.Valid) {i : ℕ} {column : ColumnDef} (hp : schema.Primary i column)
    (hmis : Mistyped column select) {rows kept : List Row}
    (hrows : ∀ row ∈ rows, ∃ v, row[i]? = some v ∧ IsPrimary column v)
    (h : filterRows select.filter schema rows = .ok kept) : rows = [] := by
  rcases rows with _ | ⟨row, rows⟩
  · rfl
  obtain ⟨expr, value, hfilter, hprimary, hne, htype⟩ := hmis
  obtain ⟨v, hrow, hvne, hvtype⟩ := hrows row List.mem_cons_self
  obtain ⟨b, hb, -⟩ := Res.bind_eq_ok.1 h
  rw [hfilter] at hb
  obtain ⟨w, hw, -⟩ := Res.bind_eq_ok.1 hb
  obtain ⟨v', hrow', hcmp⟩ := (evaluates_primaryEquality hv hp hprimary).1 (eval_eq_ok.1 hw)
  obtain rfl : v = v' := Option.some.inj (hrow.symm.trans hrow')
  rcases (compareValues_eq_ok (by simp [BinaryOp.Compares])).1 hcmp with ⟨hnull, -⟩ | ⟨hcomp, -⟩
  · exact (hnull.elim hvne hne).elim
  · obtain ⟨-, -, dataType, htv, htvalue⟩ := hcomp
    obtain rfl : dataType = column.dataType := hasType_unique hvne htv hvtype
    rw [htype] at htvalue
    cases htvalue

theorem fullScan_run (h : Sound schemas m) (hs : schemas select.table = some schema) :
    (selectWith (fun _ => .ok .fullScan) select : Act Tables SqlResult).run m =
      (finishSelect schema select ((rowsOf m schema).map Prod.snd), m) := by
  have hacc : (accessRows schema .fullScan : Act Tables (List Row)).run m =
      (.ok ((rowsOf m schema).map Prod.snd), m) := by
    rw [accessRows, Act.run_bind_ok (allRows_run h hs)]
    rfl
  rw [selectWith_run h hs rfl, Act.run_bind_ok hacc, Act.run_lift]

open Classical in
/-- Where the full scan succeeds, so does the planned path, unless it looks for a value that no row can
    have in a table without rows. -/
theorem selectRows_of_fullScan (h : Sound schemas m) (hs : schemas select.table = some schema) {i : ℕ}
    {column : ColumnDef} (hp : schema.Primary i column) {result : SqlResult}
    (hfull : finishSelect schema select ((rowsOf m schema).map Prod.snd) = .ok result) :
    ((selectRows select : Act Tables SqlResult).run m).1 = .ok result ∨
      Mistyped column select ∧ rowsOf m schema = [] := by
  have hv := (h.valid hs).1
  have hfull' := hfull
  obtain ⟨kept, hkept, -⟩ := Res.bind_eq_ok.1 hfull'
  obtain ⟨hmis, -⟩ | ⟨-, rows, hrows, hacc⟩ := accessRows_planned h hs hp select
  · refine Or.inr ⟨hmis, List.map_eq_nil_iff.1 (filterRows_mistyped hv hp hmis (fun row hrow => ?_) hkept)⟩
    obtain ⟨e, he, rfl⟩ := List.mem_map.1 hrow
    obtain ⟨v, hv, hprimary, -⟩ := (rowKey_eq_ok hp).1 ((mem_rowsOf h hs).1 he).1.key
    exact ⟨v, hv, hprimary⟩
  · have hsame : filterRows select.filter schema rows = .ok kept := by
      rcases hrows.all with rfl | hall
      · exact hkept
      · rw [filterRows_of_keeps hall, filterRows_eq_ok hkept, ← hrows.filter]
        congr 1
        exact (List.filter_eq_self.2 fun row hrow => decide_eq_true (hall row hrow)).symm
    refine Or.inl ?_
    rw [selectRows, selectWith_run h hs (planSelect_eq hp select), Act.run_bind_ok hacc, Act.run_lift,
      ← hfull, finishSelect, finishSelect, hsame, hkept]

/-- The planned path fails on a value that no row can have. -/
theorem selectRows_mistyped (h : Sound schemas m) (hs : schemas select.table = some schema) {i : ℕ}
    {column : ColumnDef} (hp : schema.Primary i column) (hmis : Mistyped column select) :
    ∃ fault, ((selectRows select : Act Tables SqlResult).run m).1 = .error fault := by
  obtain ⟨-, fault, hacc⟩ | ⟨hnot, -⟩ := accessRows_planned h hs hp select
  · exact ⟨fault, by rw [selectRows, selectWith_run h hs (planSelect_eq hp select), Act.run_bind_error hacc]⟩
  · exact absurd hmis hnot

end Paths

/-! ## Queries of the engine -/

/-- The rows of a table, in the order of their keys. -/
structure TableRows (entries : List (String × String)) (schema : Schema) (rows : List (String × Row)) :
    Prop where
  sorted : SortedKeys rows
  mem : ∀ key row, (key, row) ∈ rows ↔ ∃ text, (key, text) ∈ entries ∧
    startsWith key (rowPrefix schema.name) = true ∧ decodeRow text schema = .ok row

theorem tableRows_rowsOf (m : Tables) (schema : Schema) : TableRows m.entries schema (rowsOf m schema) := by
  refine ⟨sortedKeys_rowsOf m schema, fun key row => ?_⟩
  rw [rowsOf, List.mem_filterMap]
  constructor
  · rintro ⟨⟨k, text⟩, hmem, hdec⟩
    obtain ⟨hmem, hpre⟩ := List.mem_filter.1 hmem
    rcases hrow : decodeRow text schema with fault | row'
    · simp [hrow] at hdec
    · simp only [hrow, Option.some.injEq, Prod.mk.injEq] at hdec
      obtain ⟨rfl, rfl⟩ := hdec
      exact ⟨text, hmem, hpre, hrow⟩
  · rintro ⟨text, hmem, hpre, hdec⟩
    exact ⟨(key, text), List.mem_filter.2 ⟨hmem, hpre⟩, by simp only [hdec]⟩

/-- **A `SELECT` that returns rows returns the right ones**, whatever access path was planned. -/
theorem select_selected {e : SqlEngine} (h : e.Reached) {select : Select} {schema : Schema}
    (ht : e.HasTable select.table schema) {columns : List String} {rows : List Row}
    (hrun : ((SqlEngine.executeStatement (.select select)).run e).1 = .ok (.rows columns rows)) :
    ∃ table, TableRows e.visible schema table ∧
      Selected schema select (table.map Prod.snd) columns rows := by
  obtain ⟨db, schemas, hrep, hsound, hs⟩ := h.table ht
  obtain ⟨-, hok⟩ := (hrep.withTransaction_eq_ok fun inner commits =>
    (session_simulates inner commits).executeData (.select select)).1 hrun
  refine ⟨rowsOf db.visible schema, ?_, ?_⟩
  · rw [hrep.visible]
    exact tableRows_rowsOf db.visible schema
  · obtain ⟨columns', rows', heq, hsel⟩ := selectRows_selected hsound hs hok
    cases heq
    exact hsel

theorem withTransaction_active {α : Type} {e : SqlEngine} {txn : Transaction} (h : e.active = some txn)
    (operation : Act Session α) :
    ((SqlEngine.withTransaction operation).run e).1 = (operation.run ⟨e.disk, e.inner, txn⟩).1 := by
  simp only [SqlEngine.withTransaction, Act.run, h]

/-- A select, from the rows that it reads. -/
theorem selectRows_run {s s₁ s₂ : Session} {select : Select} {schema : Schema} {access : Access} {rows : List Row}
    (hschema : (loadSchema select.table).run s = (.ok schema, s₁))
    (hplan : (planSelect select schema).map Plan.access = .ok access)
    (hrows : (accessRows schema access).run s₁ = (.ok rows, s₂)) :
    ((selectRows select).run s).1 = finishSelect schema select rows := by
  rw [selectRows, selectWith, Act.run_bind_ok hschema, Act.run_bind_ok (by rw [hplan]; rfl), Act.run_bind_ok hrows]
  rfl

/-- The items after a script. -/
def itemsAfter (script : String) : SqlEngine :=
  ((SqlEngine.execute ("create table items (id integer primary key, name text);" ++ script)).run .fresh).2

theorem itemsAfter_reached (script : String) : (itemsAfter script).Reached :=
  .executed _ (.opened SqlEngine.open_fresh)

/-- `select name from items where id < 3 or name = 'b' order by name desc limit 2`. -/
def nameQuery : Select :=
  ⟨"ITEMS", .columns ["NAME"], some (.binary .or (.binary .lt (.column "ID") (.literal (.integer ⟨3, by decide⟩)))
    (.binary .eq (.column "NAME") (.literal (.text "b")))), some ("NAME", false), some 2⟩

/-- Four items, three of them written by a transaction that is still open. -/
def openItems : SqlEngine := itemsAfter "insert into items (id) values (2); begin;
  insert into items (id, name) values (5, 'b'); insert into items (id, name) values (7, 'z');
  insert into items (id, name) values (-1, 'a');"

/-- What the open transaction reads of the table. -/
theorem openItems_read : openItems.active.map (fun txn =>
      (((loadSchema nameQuery.table).run (⟨openItems.disk, openItems.inner, txn⟩ : Session)).1,
        ((accessRows itemsSchema .fullScan).run
          ((loadSchema nameQuery.table).run (⟨openItems.disk, openItems.inner, txn⟩ : Session)).2).1)) =
    some (.ok itemsSchema,
      .ok [[.integer ⟨2, by decide⟩, .null], [.integer ⟨5, by decide⟩, .text "b"],
        [.integer ⟨7, by decide⟩, .text "z"], [.integer ⟨-1, by decide⟩, .text "a"]]) := by decide +kernel

/-- Three rows, the first of which belongs behind the others. -/
theorem mergeSort_three {α : Type} {le : α → α → Bool} {a b c : α} (hab : le a b = false) (hac : le a c = false)
    (hbc : le b c = true) : [a, b, c].mergeSort le = [b, c, a] := by
  simp [List.mergeSort, List.MergeSort.Internal.splitInTwo, hab, hac, hbc]

theorem nameQuery_run : ((SqlEngine.executeStatement (.select nameQuery)).run openItems).1 =
    .ok (.rows ["NAME"] [[.text "b"], [.text "a"]]) := by
  obtain ⟨txn, hactive, hread⟩ := Option.map_eq_some_iff.1 openItems_read
  obtain ⟨hschema, hrows⟩ := Prod.mk.inj hread
  have hplan : (planSelect nameQuery itemsSchema).map Plan.access = .ok .fullScan := by decide +kernel
  have hfilter : filterRows nameQuery.filter itemsSchema
      [[.integer ⟨2, by decide⟩, .null], [.integer ⟨5, by decide⟩, .text "b"],
        [.integer ⟨7, by decide⟩, .text "z"], [.integer ⟨-1, by decide⟩, .text "a"]] =
      .ok [[.integer ⟨2, by decide⟩, .null], [.integer ⟨5, by decide⟩, .text "b"],
        [.integer ⟨-1, by decide⟩, .text "a"]] := by decide +kernel
  have hsort : sortRows itemsSchema [[.integer ⟨2, by decide⟩, .null], [.integer ⟨5, by decide⟩, .text "b"],
      [.integer ⟨-1, by decide⟩, .text "a"]] nameQuery.orderBy =
      .ok [[.integer ⟨5, by decide⟩, .text "b"], [.integer ⟨-1, by decide⟩, .text "a"],
        [.integer ⟨2, by decide⟩, .null]] := by
    have hindex : itemsSchema.columnIndex "NAME" = some 1 := by decide +kernel
    rw [nameQuery, sortRows, hindex]
    exact congrArg Except.ok (mergeSort_three (by decide +kernel) (by decide +kernel) (by decide +kernel))
  change ((SqlEngine.withTransaction (selectRows nameQuery)).run openItems).1 = _
  rw [withTransaction_active hactive,
    selectRows_run (Act.run_eq_of_fst hschema) hplan (Act.run_eq_of_fst hrows), finishSelect, hfilter, Res.ok_bind, hsort]
  decide +kernel

theorem select_selected_items :
    parse "select name from items where id < 3 or name = 'b' order by name desc limit 2" = .ok [.select nameQuery] ∧
    ∃ table, TableRows openItems.visible itemsSchema table ∧
      Selected itemsSchema nameQuery (table.map Prod.snd) ["NAME"] [[.text "b"], [.text "a"]] :=
  ⟨by decide +kernel, select_selected (itemsAfter_reached _) ⟨"ID|I|1\nNAME|T|0", by decide +kernel, by decide +kernel⟩
    nameQuery_run⟩

/-- A query that is refused for the type of a primary value alone: the table has no rows, and nothing
    else is wrong. -/
structure RefusedAlone (e : SqlEngine) (schema : Schema) (select : Select) : Prop where
  mistyped : ∃ i column, schema.Primary i column ∧ Mistyped column select
  empty : ∀ key text, (key, text) ∈ e.visible → startsWith key (rowPrefix select.table) = false
  known : select.Known schema
  ready : e.Ready

theorem rowsOf_eq_nil {schemas : String → Option Schema} {m : Tables} {schema : Schema} {table : String}
    (h : Sound schemas m) (hs : schemas table = some schema) : rowsOf m schema = [] ↔
      ∀ key text, (key, text) ∈ m.entries → startsWith key (rowPrefix table) = false := by
  rw [List.eq_nil_iff_forall_not_mem]
  constructor
  · intro hnil key text hmem
    refine Bool.eq_false_iff.2 fun hpre => ?_
    have hget := SortedMap.mem_entries.1 hmem
    obtain ⟨row, hrow, rfl, -⟩ := h.row_of_startsWith hs hget hpre
    exact hnil (key, row) ((mem_rowsOf h hs).2 ⟨hrow, hget⟩)
  · rintro hnone ⟨key, row⟩ hmem
    obtain ⟨hrow, hget⟩ := (mem_rowsOf h hs).1 hmem
    obtain ⟨hv, rfl⟩ := h.valid hs
    have hpre := (hrow.startsWith hv hv.name).2 rfl
    rw [hnone key _ (SortedMap.mem_entries.2 hget)] at hpre
    cases hpre

/-- **When the planned access path does as well as the full scan**: not when it is refused for the type
    of the value that it looks for alone. -/
theorem index_lookup_iff {e : SqlEngine} (h : e.Reached) {select : Select} {schema : Schema}
    (ht : e.HasTable select.table schema) :
    (∀ result,
      ((SqlEngine.withTransaction (selectWith (fun _ => .ok .fullScan) select)).run e).1 = .ok result →
      ((SqlEngine.executeStatement (.select select)).run e).1 = .ok result) ↔
    ¬ RefusedAlone e schema select := by
  obtain ⟨db, schemas, hrep, hsound, hs⟩ := h.table ht
  obtain ⟨i, column, hp⟩ := (hsound.valid hs).1.primary
  have hscan := fullScan_run hsound hs
  have hfull := fun result => hrep.withTransaction_eq_ok (a := result) fun inner commits =>
    (session_simulates inner commits).selectWith (fun _ => .ok .fullScan) select
  have hplanned := fun result => hrep.withTransaction_eq_ok (a := result) fun inner commits =>
    (session_simulates inner commits).executeData (.select select)
  have hempty := rowsOf_eq_nil hsound hs
  rw [← hrep.visible] at hempty
  constructor
  · rintro hall ⟨⟨i', column', hp', hmis⟩, hnone, hknown, hready⟩
    rw [hempty.2 hnone, List.map_nil, finishSelect_nil hknown] at hscan
    have hrun := (hfull _).2 ⟨hready, by rw [hscan]⟩
    obtain ⟨-, hok⟩ := (hplanned _).1 (hall _ hrun)
    obtain ⟨fault, hfault⟩ := selectRows_mistyped hsound hs hp' hmis
    exact nomatch hok.symm.trans hfault
  · intro hnot result hrun
    obtain ⟨hready, hok⟩ := (hfull result).1 hrun
    rw [hscan] at hok
    rcases selectRows_of_fullScan hsound hs hp hok with hok' | ⟨hmis, hnil⟩
    · exact (hplanned result).2 ⟨hready, hok'⟩
    · exact absurd ⟨⟨i, column, hp, hmis⟩, hempty.1 hnil, finishSelect_known hok, hready⟩ hnot

theorem one_fits : -2 ^ 63 ≤ (1 : ℤ) ∧ (1 : ℤ) < 2 ^ 63 := by decide

theorem two_fits : -2 ^ 63 ≤ (2 : ℤ) ∧ (2 : ℤ) < 2 ^ 63 := by decide

theorem nine_fits : -2 ^ 63 ≤ (9 : ℤ) ∧ (9 : ℤ) < 2 ^ 63 := by decide

/-- `select * from items where id = 'x'`. -/
def idIsText : Select :=
  ⟨"ITEMS", .all, some (.binary .eq (.column "ID") (.literal (.text "x"))), none, none⟩

/-- Two rows, one of them without a name. -/
def twoRows : String := "insert into items (id) values (1); insert into items (id, name) values (2, 'b');"

theorem itemsAfter_two_rows : (itemsAfter twoRows).HasTable "ITEMS" itemsSchema :=
  ⟨"ID|I|1\nNAME|T|0", by decide +kernel, by decide +kernel⟩

/-- `select * from items where id = 2`. -/
def idIsTwo : Select :=
  ⟨"ITEMS", .all, some (.binary .eq (.column "ID") (.literal (.integer ⟨2, two_fits⟩))), none, none⟩

/-- The lookup returns the row that the full scan returns. -/
theorem index_lookup_iff_items :
    ¬ RefusedAlone (itemsAfter twoRows) itemsSchema idIsTwo ∧
    ((SqlEngine.withTransaction (selectWith (fun _ => .ok .fullScan) idIsTwo)).run (itemsAfter twoRows)).1 =
      .ok (.rows ["ID", "NAME"] [[.integer ⟨2, by decide⟩, .text "b"]]) ∧
    ((SqlEngine.executeStatement (.select idIsTwo)).run (itemsAfter twoRows)).1 =
      .ok (.rows ["ID", "NAME"] [[.integer ⟨2, by decide⟩, .text "b"]]) := by
  have hnot : ¬ RefusedAlone (itemsAfter twoRows) itemsSchema idIsTwo := by
    intro h
    have hmem : ("__ROW:ITEMS:490100000000000000", "490100000000000000:4e") ∈ (itemsAfter twoRows).visible := by
      decide +kernel
    exact absurd (h.empty _ _ hmem) (by decide +kernel)
  have hscan : ((SqlEngine.withTransaction (selectWith (fun _ => .ok .fullScan) idIsTwo)).run (itemsAfter twoRows)).1 =
      .ok (.rows ["ID", "NAME"] [[.integer ⟨2, by decide⟩, .text "b"]]) := by decide +kernel
  exact ⟨hnot, hscan, (index_lookup_iff (itemsAfter_reached _) itemsAfter_two_rows).2 hnot _ hscan⟩

/-- A query on an empty table: the full scan returns no rows, but the lookup is refused. -/
theorem index_lookup_refused : parse "select * from items where id = 'x'" = .ok [.select idIsText] ∧
    (itemsAfter "").Reached ∧ (itemsAfter "").HasTable "ITEMS" itemsSchema ∧
    ((SqlEngine.withTransaction (selectWith (fun _ => .ok .fullScan) idIsText)).run (itemsAfter "")).1 =
      .ok (.rows ["ID", "NAME"] []) ∧
    ((SqlEngine.executeStatement (.select idIsText)).run (itemsAfter "")).1 =
      input "sql: value has the wrong column type" :=
  ⟨by decide +kernel, itemsAfter_reached _, ⟨"ID|I|1\nNAME|T|0", by decide +kernel, by decide +kernel⟩,
    by decide +kernel, by decide +kernel⟩

end NutDb.Sql
