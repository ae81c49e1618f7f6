/-
  Rows from the text of an `INSERT` to the result of a `SELECT`.

  `Reads` says which value a part of the parser makes of which tokens.  With it
  the statements that were written are read back (`parse_insertText`,
  `parse_selectText`), and every row that is inserted by its text is found by the
  text of its primary value (`literals_survive`).
-/
import NutDb.Sql.Literals
import NutDb.Sql.Select
import NutDb.Sql.Transactions

namespace NutDb.Sql

open Lib Mvcc

/-! ## Parsing -/

namespace Parser

section
variable (tokens : List Token)

/-- These kinds of tokens are left. -/
def Ahead (offset : ℕ) (kinds : List TokenKind) : Prop := (tokens.drop offset).map Token.kind = kinds

/-- The parser makes `a` of the tokens `kinds`, and leaves `rest`. -/
def Reads {α : Type} (x : Act ℕ α) (kinds : List TokenKind) (a : α) (rest : List TokenKind) : Prop :=
  ∀ offset, Ahead tokens offset kinds → ∃ offset', x.run offset = (.ok a, offset') ∧ Ahead tokens offset' rest

end

section Reads
variable {tokens : List Token} {α β : Type} {kind other : TokenKind} {kinds rest rest' : List TokenKind}
  {offset : ℕ}

theorem Ahead.peek (h : Ahead tokens offset (kind :: kinds)) : ∃ token, token.kind = kind ∧
    (Parser.peek tokens).run offset = (.ok token, offset) ∧ Ahead tokens (offset + 1) kinds := by
  unfold Ahead at h ⊢
  obtain ⟨token, tail, hdrop, hkind, htail⟩ := List.map_eq_cons_iff.1 h
  have hget : tokens[offset]? = some token := by
    rw [← List.head?_drop, hdrop]
    rfl
  refine ⟨token, hkind, ?_, ?_⟩
  · exact Prod.ext (Res.get_of_getElem? hget) rfl
  · rw [← List.tail_drop, hdrop, List.tail_cons, htail]

theorem Ahead.length_pos (h : Ahead tokens offset (kind :: kinds)) : 0 < tokens.length := by
  have hlen := congrArg List.length h
  simp only [List.length_map, List.length_drop, List.length_cons] at hlen
  omega

theorem reads_pure (a : α) : Reads tokens (pure a) kinds a kinds := fun offset h => ⟨offset, rfl, h⟩

theorem Reads.bind {x : Act ℕ α} {f : α → Act ℕ β} {a : α} {b : β} (hx : Reads tokens x kinds a rest)
    (hf : Reads tokens (f a) rest b rest') : Reads tokens (x >>= f) kinds b rest' := by
  intro offset h
  obtain ⟨offset₁, hrun₁, h₁⟩ := hx offset h
  obtain ⟨offset₂, hrun₂, h₂⟩ := hf offset₁ h₁
  exact ⟨offset₂, by rw [Act.run_bind_ok hrun₁, hrun₂], h₂⟩

/-- A step that looks at the next token. -/
theorem reads_peek {f : Token → Act ℕ β} {b : β}
    (hf : ∀ token, token.kind = kind → Reads tokens (f token) (kind :: kinds) b rest) :
    Reads tokens (Parser.peek tokens >>= f) (kind :: kinds) b rest := by
  intro offset h
  obtain ⟨token, hkind, hpeek, -⟩ := h.peek
  obtain ⟨offset', hrun, h'⟩ := hf token hkind offset h
  exact ⟨offset', by rw [Act.run_bind_ok hpeek, hrun], h'⟩

theorem reads_skip : Reads tokens skip (kind :: kinds) () kinds := by
  intro offset h
  obtain ⟨token, -, -, h'⟩ := h.peek
  exact ⟨offset + 1, rfl, h'⟩

theorem reads_consumeSimple : Reads tokens (consumeSimple tokens kind) (kind :: kinds) true kinds := by
  refine reads_peek fun token hkind => ?_
  rw [if_pos hkind]
  exact reads_skip.bind (reads_pure _)

theorem reads_consumeSimple_other (h : other ≠ kind) :
    Reads tokens (consumeSimple tokens kind) (other :: kinds) false (other :: kinds) := by
  refine reads_peek fun token hkind => ?_
  rw [if_neg (by rwa [hkind])]
  exact reads_pure _

theorem reads_expectSimple (what : String) :
    Reads tokens (expectSimple tokens kind what) (kind :: kinds) () kinds :=
  reads_consumeSimple.bind (reads_pure _)

theorem reads_checkWord {w : String} {found : Bool} (h : (kind == .word w) = found) :
    Reads tokens (checkWord tokens w) (kind :: kinds) found (kind :: kinds) := by
  refine reads_peek fun token hkind => ?_
  rw [hkind, h]
  exact reads_pure _

theorem reads_consumeWord (w : String) : Reads tokens (consumeWord tokens w) (.word w :: kinds) true kinds :=
  (reads_checkWord (beq_self_eq_true _)).bind (reads_skip.bind (reads_pure _))

theorem reads_consumeWord_other {w : String} (h : other ≠ .word w) :
    Reads tokens (consumeWord tokens w) (other :: kinds) false (other :: kinds) :=
  (reads_checkWord (beq_eq_false_iff_ne.2 h)).bind (reads_pure _)

theorem reads_expectWord (w : String) : Reads tokens (expectWord tokens w) (.word w :: kinds) () kinds :=
  (reads_consumeWord w).bind (reads_pure _)

theorem reads_atEnd {found : Bool} (h : (kind == .done) = found) :
    Reads tokens (atEnd tokens) (kind :: kinds) found (kind :: kinds) := by
  refine reads_peek fun token hkind => ?_
  rw [hkind, h]
  exact reads_pure _

/-- A step that takes the next token. -/
theorem reads_advance (hdone : kind ≠ .done) {f : Token → Act ℕ β} {b : β}
    (hf : ∀ token, token.kind = kind → Reads tokens (f token) kinds b rest) :
    Reads tokens (advance tokens >>= f) (kind :: kinds) b rest := by
  intro offset h
  obtain ⟨token, hkind, hpeek, h'⟩ := h.peek
  have hadvance : (advance tokens).run offset = (.ok token, offset + 1) := by
    have hend : (atEnd tokens).run offset = (.ok false, offset) := by
      rw [atEnd, Act.run_bind_ok hpeek, hkind, beq_eq_false_iff_ne.2 hdone]
      rfl
    rw [advance, Act.run_bind_ok hpeek, Act.run_bind_ok hend]
    rfl
  obtain ⟨offset', hrun, h''⟩ := hf token hkind (offset + 1) h'
  exact ⟨offset', by rw [Act.run_bind_ok hadvance, hrun], h''⟩

theorem reads_word (w : String) : Reads tokens (word tokens) (.word w :: kinds) w kinds := by
  refine reads_advance (by simp) fun token hkind => ?_
  rw [hkind]
  exact reads_pure _

theorem token_ne (v : Value) : v.token ≠ .done ∧ v.token ≠ .leftParen := by
  cases v with
  | boolean value => cases value <;> simp [Value.token]
  | _ => simp [Value.token]

theorem reads_literal (v : Value) : Reads tokens (literal tokens) (v.token :: kinds) v kinds := by
  refine reads_advance (token_ne v).1 fun token hkind => ?_
  rw [hkind]
  cases v with
  | boolean value => cases value <;> exact reads_pure _
  | _ => exact reads_pure _

/-! ## Lists -/

/-- **Items between commas.** -/
theorem reads_commaSeparated {item : Act ℕ α} {f : α → List TokenKind}
    (hitem : ∀ a kinds, Reads tokens item (f a ++ kinds) a kinds) {items : List α} (hne : items ≠ [])
    (hkind : kind ≠ .comma) {fuel : ℕ} (hfuel : items.length ≤ fuel) :
    Reads tokens (commaSeparated tokens item fuel) ([.comma].intercalate (items.map f) ++ kind :: kinds)
      items (kind :: kinds) := by
  induction items generalizing fuel with
  | nil => exact absurd rfl hne
  | cons a items ih =>
    obtain ⟨fuel, rfl⟩ : ∃ n, fuel = n + 1 := Nat.exists_eq_succ_of_ne_zero (by rintro rfl; cases hfuel)
    cases items with
    | nil =>
      rw [List.map_singleton, List.intercalate_singleton]
      exact (hitem a _).bind ((reads_consumeSimple_other hkind).bind (reads_pure _))
    | cons a' items =>
      have hrest := ih (List.cons_ne_nil _ _) (Nat.le_of_succ_le_succ hfuel)
      rw [List.map_cons, List.map_cons, List.intercalate_cons_cons, List.append_assoc, List.append_assoc]
      exact (hitem a _).bind (reads_consumeSimple.bind (hrest.bind (reads_pure _)))

/-- Items of one token. -/
theorem intercalate_singletons (c : β) (f : α → β) (l : List α) :
    [c].intercalate (l.map fun a => [f a]) = (l.map f).intersperse c := by
  induction l with
  | nil => rfl
  | cons a l ih =>
    cases l with
    | nil => rfl
    | cons a' l =>
      rw [List.map_cons, List.map_cons, List.intercalate_cons_cons, ← List.map_cons (f := fun a => [f a]), ih]
      rfl

/-- **Names between commas**, up to what is seen as the end. -/
theorem reads_identifiersUntil {stop : Act ℕ Bool} (hstop : Reads tokens stop (kind :: kinds) true rest)
    (hcomma : ∀ kinds, Reads tokens stop (.comma :: kinds) false (.comma :: kinds)) {names : List String}
    (hne : names ≠ []) {fuel : ℕ} (hfuel : names.length ≤ fuel) :
    Reads tokens (identifiersUntil tokens stop fuel)
      ((names.map TokenKind.word).intersperse .comma ++ kind :: kinds) names rest := by
  induction names generalizing fuel with
  | nil => exact absurd rfl hne
  | cons name names ih =>
    obtain ⟨fuel, rfl⟩ : ∃ n, fuel = n + 1 := Nat.exists_eq_succ_of_ne_zero (by rintro rfl; cases hfuel)
    cases names with
    | nil => exact (reads_word name).bind (hstop.bind (reads_pure _))
    | cons name' names =>
      have hrest := ih (List.cons_ne_nil _ _) (Nat.le_of_succ_le_succ hfuel)
      exact (reads_word name).bind ((hcomma _).bind
        ((reads_expectSimple _).bind (hrest.bind (reads_pure _))))

/-! ## Expressions -/

theorem reads_primary_literal {v : Value} {depth : ℕ} :
    Reads tokens (primary tokens (depth + 1)) (v.token :: kinds) (.literal v) kinds := by
  have hliteral : Reads tokens (do return Expr.literal (← literal tokens)) (v.token :: kinds) (.literal v) kinds :=
    (reads_literal v).bind (reads_pure _)
  rw [primary]
  refine (reads_consumeSimple_other (token_ne v).2).bind (reads_peek fun token hkind => ?_)
  rw [hkind]
  cases v with
  | boolean value => cases value <;> exact hliteral
  | _ => exact hliteral

theorem reads_primary_column {name : String} {depth : ℕ} (h : name ≠ "NULL" ∧ name ≠ "TRUE" ∧ name ≠ "FALSE") :
    Reads tokens (primary tokens (depth + 1)) (.word name :: kinds) (.column name) kinds := by
  rw [primary]
  refine (reads_consumeSimple_other (by simp)).bind (reads_peek fun token hkind => ?_)
  have hname : ¬ (name = "NULL" ∨ name = "TRUE" ∨ name = "FALSE") := by tauto
  rw [hkind]
  simp only [if_neg hname]
  exact (reads_word name).bind (reads_pure _)

theorem reads_operatorLoop {w : String} {op : BinaryOp} {operand : Act ℕ Expr} {e : Expr} {fuel : ℕ}
    (hfuel : 0 < fuel) (h : kind ≠ .word w) :
    Reads tokens (operatorLoop tokens w op operand fuel e) (kind :: kinds) e (kind :: kinds) := by
  obtain ⟨fuel, rfl⟩ : ∃ n, fuel = n + 1 := Nat.exists_eq_succ_of_ne_zero hfuel.ne'
  exact (reads_consumeWord_other h).bind (reads_pure _)

/-- **A column and a literal with `=` between them**, at the end of the text. -/
theorem reads_expr {name : String} {v : Value} (h : name ≠ "NULL" ∧ name ≠ "TRUE" ∧ name ≠ "FALSE") :
    Reads tokens (expr tokens tokens.length) [.word name, .eq, v.token, .done]
      (.binary .eq (.column name) (.literal v)) [.done] := by
  intro offset hahead
  have hlen := hahead.length_pos
  obtain ⟨depth, hdepth⟩ : ∃ n, tokens.length = n + 1 := Nat.exists_eq_succ_of_ne_zero hlen.ne'
  have hcomparison : Reads tokens (comparison tokens (primary tokens tokens.length))
      [.word name, .eq, v.token, .done] (.binary .eq (.column name) (.literal v)) [.done] := by
    rw [hdepth]
    refine (reads_primary_column h).bind (reads_peek fun token hkind => ?_)
    rw [hkind]
    exact reads_skip.bind (reads_primary_literal.bind (reads_pure _))
  have hand : Reads tokens (and tokens (primary tokens tokens.length))
      [.word name, .eq, v.token, .done] (.binary .eq (.column name) (.literal v)) [.done] :=
    hcomparison.bind (reads_operatorLoop hlen (by simp))
  exact hand.bind (reads_operatorLoop hlen (by simp)) offset hahead

/-! ## Statements -/

theorem Ahead.length_le (h : Ahead tokens offset kinds) : kinds.length ≤ tokens.length := by
  have hlen := congrArg List.length h
  simp only [List.length_map, List.length_drop] at hlen
  omega

theorem reads_insert {table : String} {names : List String} {values : List Value} (hnames : names ≠ [])
    (hvalues : values ≠ []) :
    Reads tokens (insert tokens) (.word table :: .leftParen :: ((names.map TokenKind.word).intersperse .comma ++
      .rightParen :: .word "VALUES" :: .leftParen :: ((values.map Value.token).intersperse .comma ++
        [.rightParen, .done]))) (.insert table names values) [.done] := by
  intro offset hahead
  have hlen := hahead.length_le
  simp only [List.length_cons, List.length_append, List.length_intersperse, List.length_map] at hlen
  have hn : names.length ≤ tokens.length := by omega
  have hm : values.length ≤ tokens.length := by omega
  have hstop : ∀ kinds, Reads tokens (consumeSimple tokens .rightParen) (.rightParen :: kinds) true kinds :=
    fun kinds => reads_consumeSimple
  have hcolumns := fun kinds => reads_identifiersUntil (hstop kinds)
    (fun kinds => reads_consumeSimple_other (by simp)) hnames hn
  have hliterals : ∀ kinds, Reads tokens (commaSeparated tokens (literal tokens) tokens.length)
      ([.comma].intercalate (values.map fun v => [Value.token v]) ++ .rightParen :: kinds) values
      (.rightParen :: kinds) :=
    fun kinds => reads_commaSeparated (fun v kinds => reads_literal v) hvalues (by simp) hm
  simp only [intercalate_singletons] at hliterals
  refine Reads.bind (reads_word table) ((reads_expectSimple _).bind ((hcolumns _).bind ?_)) offset hahead
  refine (reads_expectWord "VALUES").bind ((reads_expectSimple _).bind ((hliterals _).bind ?_))
  exact (reads_expectSimple _).bind (reads_pure _)

theorem reads_selectAfterKeyword {table name : String} {v : Value}
    (h : name ≠ "NULL" ∧ name ≠ "TRUE" ∧ name ≠ "FALSE") :
    Reads tokens (selectAfterKeyword tokens tokens.length)
      [.star, .word "FROM", .word table, .word "WHERE", .word name, .eq, v.token, .done]
      ⟨table, .all, some (.binary .eq (.column name) (.literal v)), none, none⟩ [.done] := by
  have hprojection : Reads tokens (projection tokens)
      [.star, .word "FROM", .word table, .word "WHERE", .word name, .eq, v.token, .done] .all
      [.word "FROM", .word table, .word "WHERE", .word name, .eq, v.token, .done] :=
    reads_consumeSimple.bind (reads_pure _)
  have hfilter : Reads tokens (filter tokens tokens.length) [.word "WHERE", .word name, .eq, v.token, .done]
      (some (.binary .eq (.column name) (.literal v))) [.done] :=
    (reads_consumeWord "WHERE").bind ((reads_expr h).bind (reads_pure _))
  have horder : Reads tokens (orderBy tokens) [.done] none [.done] :=
    (reads_consumeWord_other (by simp)).bind (reads_pure _)
  have hlimit : Reads tokens (limit tokens) [.done] none [.done] :=
    (reads_consumeWord_other (by simp)).bind (reads_pure _)
  exact hprojection.bind ((reads_expectWord "FROM").bind ((reads_word table).bind (hfilter.bind
    (horder.bind (hlimit.bind (reads_pure _))))))

/-- **A text with one statement.** -/
theorem parse_eq_of_reads {source w : String} {s : Statement} (hlex : Lexes source (.word w :: kinds))
    (hs : ∀ tokens, Reads tokens (statement tokens tokens.length) (.word w :: kinds ++ [.done]) s [.done]) :
    parse source = .ok [s] := by
  obtain ⟨tokens, htokens, hkinds⟩ := hlex (utf8 source).length 0 le_rfl
  have hahead : Ahead tokens 0 (.word w :: (kinds ++ [.done])) := hkinds
  have hreads : Reads tokens (statements tokens tokens.length (tokens.length + 1))
      (.word w :: (kinds ++ [.done])) [s] [.done] := by
    obtain ⟨n, hn⟩ : ∃ n, tokens.length = n + 1 := Nat.exists_eq_succ_of_ne_zero hahead.length_pos.ne'
    have hend : ∀ frames, Reads tokens (statements tokens frames (n + 1)) [.done] [] [.done] := fun frames =>
      (reads_atEnd rfl).bind (reads_pure _)
    rw [← hn] at hend
    rw [statements]
    refine (reads_atEnd rfl).bind ((reads_consumeSimple_other (by simp)).bind ((hs tokens).bind ?_))
    exact (reads_consumeSimple_other (by simp)).bind ((reads_atEnd rfl).bind ((hend _).bind (reads_pure _)))
  obtain ⟨offset, hrun, -⟩ := hreads 0 hahead
  rw [parse, lex, htokens, Res.ok_bind, parseTokens, hrun]
  rfl

end Reads

end Parser

section Parse
variable {schema : Schema} {row : Row} {column : ColumnDef} {primary : Value}

open NutDb.Sql.Parser

/-- **The text of an `INSERT`** is read as that statement. -/
theorem parse_insertText (hv : schema.Valid) (hrow : row ≠ []) : parse (insertText schema row) =
    .ok [.insert schema.name (schema.columns.map ColumnDef.name) row] := by
  have hne : schema.columns.map ColumnDef.name ≠ [] :=
    mt List.map_eq_nil_iff.1 (Schema.validate_eq_ok.1 hv.validated).1
  have hwords : (schema.columns.map fun column => TokenKind.word column.name) =
      (schema.columns.map ColumnDef.name).map TokenKind.word := by
    rw [List.map_map]
    rfl
  refine parse_eq_of_reads (lexes_insertText hv hrow) fun tokens => ?_
  rw [hwords]
  simp only [List.append_assoc, List.cons_append, List.nil_append]
  exact (reads_consumeWord_other (by simp)).bind ((reads_consumeWord "INSERT").bind
    ((reads_expectWord "INTO").bind (reads_insert hne hrow)))

/-- **The text of a `SELECT`** is read as that statement. -/
theorem parse_selectText (hv : schema.Valid) (hc : IsName column.name)
    (hname : column.name ≠ "NULL" ∧ column.name ≠ "TRUE" ∧ column.name ≠ "FALSE") :
    parse (selectText schema column primary) = .ok [.select ⟨schema.name, .all,
      some (.binary .eq (.column column.name) (.literal primary)), none, none⟩] := by
  refine parse_eq_of_reads (lexes_selectText hv hc) fun tokens => ?_
  exact (reads_consumeWord_other (by simp)).bind ((reads_consumeWord_other (by simp)).bind
    ((reads_consumeWord "SELECT").bind ((reads_selectAfterKeyword hname).bind (reads_pure _))))

end Parse

/-! ## Execution -/

section Execute
variable {schemas : String → Option Schema} {m : Tables} {schema : Schema} {table key : String} {row : Row}
  {i : ℕ} {column : ColumnDef} {primary : Value}

/-- The loop of `INSERT`, after the columns `before`. -/
theorem assignInserted_columns (hv : schema.Valid) {before after : List ColumnDef} {done todo : Row}
    (hcolumns : schema.columns = before ++ after) (hdone : done.length = before.length)
    (htodo : List.Forall₂ (fun value column => value.hasType column.dataType = true) todo after) :
    assignInserted schema ((after.map ColumnDef.name).zip todo)
      (done ++ List.replicate after.length .null)
      (List.replicate before.length true ++ List.replicate after.length false) = .ok (done ++ todo) := by
  induction htodo generalizing before done with
  | nil => simp [assignInserted]
  | @cons value column todo after htype htodo ih =>
    have hcolumn : schema.columns[before.length]? = some column := by
      rw [hcolumns]
      simp
    have hused : (List.replicate before.length true).length = before.length := List.length_replicate
    have hassigned := Res.get_append_cons (List.replicate before.length true)
      (List.replicate after.length false) false
    have hset := Res.setAt_append_cons (List.replicate before.length true)
      (List.replicate after.length false) false true
    have hrow := Res.setAt_append_cons done (List.replicate after.length .null) .null value
    rw [hused] at hassigned hset
    rw [hdone] at hrow
    have hnext : schema.columns = before ++ [column] ++ after := by
      rw [hcolumns, List.append_assoc]
      rfl
    have hlen : (done ++ [value]).length = (before ++ [column]).length := by simp [hdone]
    have hchecked : checkType value column.dataType = .ok () := checkType_eq_ok.2 htype
    have ih := ih hnext hlen
    simp only [List.length_append, List.length_singleton, List.replicate_succ', List.append_assoc,
      List.singleton_append] at ih
    rw [List.map_cons, List.zip_cons_cons, List.length_cons, List.replicate_succ, List.replicate_succ,
      assignInserted, namedColumn_eq_ok.2 (hv.columnIndex hcolumn), Res.ok_bind, hassigned, Res.ok_bind]
    simp only [Bool.false_eq_true, if_false]
    rw [Res.get_of_getElem? hcolumn, Res.ok_bind, hchecked, Res.ok_bind, hrow, Res.ok_bind,
      hset, Res.ok_bind, ih]

theorem assignInserted_row (hv : schema.Valid) (hm : Matches schema row) :
    assignInserted schema ((schema.columns.map ColumnDef.name).zip row)
      (List.replicate schema.columns.length .null) (List.replicate schema.columns.length false) = .ok row := by
  have hcolumns : schema.columns = [] ++ schema.columns := rfl
  have hnil : ([] : Row).length = ([] : List ColumnDef).length := rfl
  exact assignInserted_columns hv hcolumns hnil hm

/-- **`INSERT`** of a row under a new key. -/
theorem insert_run (h : Sound schemas m) (hs : schemas schema.name = some schema) (hrow : IsRow schema key row)
    (hget : m.get key = none) (hl : (TxnRecord.set 0 key (encodeRow row)).Loggable) :
    (insert schema.name (schema.columns.map ColumnDef.name) row : Act Tables SqlResult).run m =
      (.ok (.affected 1), m.insert key (encodeRow row)) := by
  have hv := (h.valid hs).1
  have hload := loadSchema_run h schema.name
  rw [hs] at hload
  have hlen : ¬ (schema.columns.map ColumnDef.name).length ≠ row.length := by
    rw [List.length_map, hrow.fits.length_eq]
    simp
  rw [insert, Act.run_bind_ok hload, if_neg hlen, assignInserted_row hv hrow.fits,
    Act.run_bind_ok (Act.run_lift _ m), hrow.key, Act.run_bind_ok (Act.run_lift _ m),
    Act.run_bind_ok (get_run m key), hget, if_neg (by simp),
    Act.run_bind_ok (by rw [set_run, refusal_eq_none.2 hl]; rfl)]
  rfl

/-- The `SELECT` of the row with a primary value. -/
def selectPrimary (schema : Schema) (column : ColumnDef) (primary : Value) : Select :=
  ⟨schema.name, .all, some (.binary .eq (.column column.name) (.literal primary)), none, none⟩

/-- All columns of a row, by index. -/
theorem mapM_get_range (row : Row) : (List.range row.length).mapM (Res.get row) = .ok row := by
  refine mapM_eq_ok.2 (List.forall₂_iff_get.2 ⟨by simp, fun j h1 h2 => ?_⟩)
  refine Res.get_of_getElem? ?_
  simp

/-- **`SELECT`** of a row by its primary value. -/
theorem select_run (h : Sound schemas m) (hs : schemas schema.name = some schema) (hrow : IsRow schema key row)
    (hget : m.get key = some (encodeRow row)) (hp : schema.Primary i column) (hi : row[i]? = some primary) :
    (selectRows (selectPrimary schema column primary) : Act Tables SqlResult).run m =
      (.ok (.rows (schema.columns.map ColumnDef.name) [row]), m) := by
  obtain ⟨hv, -⟩ := h.valid hs
  have hne := (Schema.validate_eq_ok.1 hv.validated).1
  obtain ⟨value, hvalue, hprimary, hkey⟩ := (rowKey_eq_ok hp).1 hrow.key
  obtain rfl : value = primary := Option.some.inj (hvalue.symm.trans hi)
  have hequality : primaryEquality (.binary .eq (.column column.name) (.literal value)) column.name =
      some value := if_pos rfl
  have hplanned : planned column (selectPrimary schema column value) = .primaryKey value := by
    rw [planned, selectPrimary, Option.bind_some, hequality]
    rfl
  have haccess : (accessRows schema (.primaryKey value) : Act Tables (List Row)).run m = (.ok [row], m) := by
    rw [accessRows, if_neg hprimary.1, (rowKeyForPrimary_eq_ok hp).2 ⟨hprimary, hkey⟩,
      Act.run_bind_ok (Act.run_lift _ m), Act.run_bind_ok (get_run m key), hget]
    simp only
    rw [decodeRow_encodeRow hrow.fits hne]
    rfl
  have hfilter : filterRows (selectPrimary schema column value).filter schema [row] = .ok [row] := by
    refine filterRows_of_keeps fun row' hrow' => ?_
    obtain rfl := List.mem_singleton.1 hrow'
    exact (keeps_primaryEquality hv hp hequality).2 ⟨hi, hprimary.1⟩
  have hget' := mapM_get_range row
  rw [hrow.fits.length_eq] at hget'
  rw [selectRows, selectWith_run h hs (planSelect_eq hp _), hplanned, Act.run_bind_ok haccess, Act.run_lift,
    finishSelect, hfilter, Res.ok_bind]
  simp only [selectPrimary, sortRows, Res.ok_bind, projection, Option.map_none, Option.getD_none,
    List.mapM_cons, List.mapM_nil, hget']
  rfl

end Execute

/-! ## The engine -/

/-- The table has a row with this primary value. -/
def SqlEngine.HasPrimary (e : SqlEngine) (schema : Schema) (primary : Value) : Prop :=
  ∃ rows key row i, TableRows e.visible schema rows ∧ (key, row) ∈ rows ∧ schema.primaryIndex = .ok i ∧
    row[i]? = some primary

/-- A row that can be inserted: its values have the types of the columns, the primary one is new, and
    its record can be logged. -/
structure Insertable (e : SqlEngine) (schema : Schema) (row : Row) (column : ColumnDef) (primary : Value) :
    Prop where
  fits : Matches schema row
  value : ∃ i, schema.Primary i column ∧ row[i]? = some primary
  notNull : primary ≠ .null
  fresh : ¬ e.HasPrimary schema primary
  small : ∀ key, rowKey schema row = .ok key → (TxnRecord.set 0 key (encodeRow row)).Loggable

/-- The engine after what was executed is committed: at once, or by `COMMIT`. -/
inductive SqlEngine.Committed (e : SqlEngine) : SqlEngine → Prop
  | idle : e.active = none → Committed e e
  | commit {e'} : (SqlEngine.execute "COMMIT").run e = (.ok [.committed], e') → Committed e e'

/-- The text of a primary value finds exactly this row, if a statement can be executed at all. -/
def SqlEngine.Finds (e : SqlEngine) (schema : Schema) (column : ColumnDef) (primary : Value) (row : Row) :
    Prop :=
  e.Ready → ((SqlEngine.execute (selectText schema column primary)).run e).1 =
    .ok [.rows (schema.columns.map ColumnDef.name) [row]]

section Engine
variable {e : SqlEngine} {db : Database} {schemas : String → Option Schema} {m : Tables} {schema : Schema}
  {table key : String} {row : Row} {column : ColumnDef} {primary : Value} {i : ℕ}

/-- A text with one statement on tables. -/
theorem execute_run {source : String} {s : Statement} {result : SqlResult} (hparse : parse source = .ok [s])
    (hs : s.OnTables) (hrep : e.Rep db) (hready : e.Ready)
    (hrun : (executeData s : Act Tables SqlResult).run db.visible = (.ok result, m)) :
    ((SqlEngine.execute source).run e).1 = .ok [result] ∧
      ((SqlEngine.execute source).run e).2.Rep (db.withVisible m) := by
  have hexec : (SqlEngine.execute source).run e = (SqlEngine.executeAll [s]).run e := by
    rw [SqlEngine.execute, hparse]
    rfl
  have hdb : (Database.executeAll [s]).run db = (.ok [result], db.withVisible m) := by
    refine executeAll_cons_eq_ok.2 ⟨result, db.withVisible m, [], ?_, rfl, rfl⟩
    rw [Database.executeStatement_onTables hs, withTransaction_eq_ok, hrun]
    exact ⟨hrep.ready.1 hready, rfl, rfl⟩
  obtain ⟨hres, hrep'⟩ := executeAll_simulates [s] e db hrep
  rw [hexec, hres, hdb]
  rw [hdb] at hrep'
  exact ⟨rfl, hrep'⟩

theorem SqlEngine.Rep.finds (hrep : e.Rep db) (hm : db.visible = m) (h : Sound schemas m)
    (hs : schemas schema.name = some schema) (hrow : IsRow schema key row)
    (hget : m.get key = some (encodeRow row)) (hp : schema.Primary i column)
    (hi : row[i]? = some primary)
    (hname : column.name ≠ "NULL" ∧ column.name ≠ "TRUE" ∧ column.name ≠ "FALSE") :
    e.Finds schema column primary row := by
  subst hm
  intro hready
  have hv := (h.valid hs).1
  have hcolumn := hv.columns column (List.mem_of_getElem? hp.column)
  have honTables : (Statement.select (selectPrimary schema column primary)).OnTables := by
    simp [Statement.OnTables]
  exact (execute_run (parse_selectText hv hcolumn hname) honTables hrep hready
    (select_run h hs hrow hget hp hi)).1

/-- A key of a new primary value is not in use. -/
theorem SqlEngine.Rep.fresh (hrep : e.Rep db) (h : Sound schemas db.visible)
    (hs : schemas schema.name = some schema) (hp : schema.Primary i column) (hrow : IsRow schema key row)
    (hi : row[i]? = some primary) (hfresh : ¬ e.HasPrimary schema primary) : db.visible.get key = none := by
  rcases hget : db.visible.get key with _ | text
  · rfl
  · have hv := (h.valid hs).1
    obtain ⟨row', hrow', rfl, -⟩ := h.row_of_startsWith hs hget ((hrow.startsWith hv hv.name).2 rfl)
    refine absurd ⟨rowsOf db.visible schema, key, row', i, ?_, (mem_rowsOf h hs).2 ⟨hrow', hget⟩, hp.index,
      ?_⟩ hfresh
    · rw [hrep.visible]
      exact tableRows_rowsOf db.visible schema
    · rw [← hi]
      exact primary_of_rowKey hp hrow'.key hrow.key

theorem Database.commit_tables {db' : Database} {result : SqlResult}
    (h : (Database.executeStatement .commit).run db = (.ok result, db')) : db'.tables = db.visible := by
  obtain ⟨tables, active, nextTxn, commitTs⟩ := db
  change Database.commitStatement _ = _ at h
  cases active with
  | none => cases h
  | some m =>
    simp only [Database.commitStatement, Database.commitTxn] at h
    rcases hts : commitTs.checkedAdd 1 with _ | timestamp
    · rw [hts] at h
      cases h
    · rw [hts] at h
      cases h
      rfl

/-- What is committed is all that was visible. -/
theorem SqlEngine.Rep.committed {e' : SqlEngine} (hrep : e.Rep db) (h : e.Committed e') :
    ∃ db', e'.Rep db' ∧ db'.tables = db.visible := by
  cases h with
  | idle hactive =>
    refine ⟨db, hrep, ?_⟩
    rw [Database.visible, hrep.active_eq_none.1 hactive, Option.getD_none]
  | commit hrun =>
    have hparse : parse "COMMIT" = .ok [.commit] := by decide +kernel
    have hexec : (SqlEngine.execute "COMMIT").run e = (SqlEngine.executeAll [.commit]).run e := by
      rw [SqlEngine.execute, hparse]
      rfl
    obtain ⟨hres, hrep'⟩ := executeAll_simulates [.commit] e db hrep
    rw [← hexec, hrun] at hres hrep'
    obtain ⟨result, db₁, rest, hcommit, hrest, -⟩ := executeAll_cons_eq_ok.1 (Prod.ext hres.symm rfl)
    obtain ⟨-, hdb⟩ := Prod.mk.inj hrest
    rw [hdb] at hcommit
    exact ⟨_, hrep', Database.commit_tables hcommit⟩

end Engine

/-- **Literals survive.**  For every table and every row that can be inserted, the text of the `INSERT`
    succeeds, and then the text of its primary value finds exactly this row: in the engine as it is, and
    in every engine that is opened from its file after the row was committed. -/
theorem literals_survive {e : SqlEngine} (h : e.Reached) {table : String} {schema : Schema}
    (ht : e.HasTable table schema) {row : Row} {column : ColumnDef} {primary : Value}
    (hrow : Insertable e schema row column primary) (hready : e.Ready) :
    ((SqlEngine.execute (insertText schema row)).run e).1 = .ok [.affected 1] ∧
    (column.name ≠ "NULL" ∧ column.name ≠ "TRUE" ∧ column.name ≠ "FALSE" →
      ((SqlEngine.execute (insertText schema row)).run e).2.Finds schema column primary row ∧
      ∀ e' d, ((SqlEngine.execute (insertText schema row)).run e).2.Committed e' →
        d = e'.disk ∨ e'.disk.Crashed d →
        ∃ e'', SqlEngine.open d = .ok e'' ∧ e''.Finds schema column primary row) := by
  obtain ⟨db, schemas, hrep, hsound, hs⟩ := h.table ht
  obtain ⟨hv, rfl⟩ := hsound.valid hs
  obtain ⟨i, hp, hi⟩ := hrow.value
  have htype : primary.hasType column.dataType = true := by
    obtain ⟨v, hvi, htype⟩ := matches_getElem? hrow.fits hp.column
    rwa [Option.some.inj (hi.symm.trans hvi)]
  obtain ⟨key, hkey⟩ : ∃ key, rowKey schema row = .ok key :=
    ⟨_, (rowKey_eq_ok hp).2 ⟨primary, hi, ⟨hrow.notNull, htype⟩, rfl⟩⟩
  have hisRow : IsRow schema key row := ⟨hrow.fits, hkey⟩
  have hnil : row ≠ [] := by
    rintro rfl
    cases hi
  have hinsert := insert_run hsound hs hisRow (hrep.fresh hsound hs hp hisRow hi hrow.fresh)
    (hrow.small key hkey)
  obtain ⟨hres, hrep'⟩ := execute_run (parse_insertText hv hnil) (by simp [Statement.OnTables]) hrep hready
    hinsert
  have hsound' := hsound.insertRow hs hisRow (hrow.small key hkey)
  have hget' : (db.visible.insert key (encodeRow row)).get key = some (encodeRow row) := by
    rw [SortedMap.get_insert, if_pos rfl]
  refine ⟨hres, fun hname => ⟨?_, fun e' d hcommitted hd => ?_⟩⟩
  · exact hrep'.finds (Database.visible_withVisible _ _) hsound' hs hisRow hget' hp hi hname
  · obtain ⟨db', hdb', htables⟩ := hrep'.committed hcommitted
    obtain ⟨e'', next, hopen, hrep''⟩ := hdb'.reopen hd
    rw [Database.visible_withVisible] at htables
    exact ⟨e'', hopen, hrep''.finds htables hsound' hs hisRow hget' hp hi hname⟩

/-! A table with an integer and a text, and a row that is hard to write. -/

/-- The least integer, and a text with a quote. -/
def itemsRow : Row := [.integer ⟨-2 ^ 63, by decide⟩, .text "it's"]

/-- The row can be inserted into the empty table. -/
theorem insertable_itemsRow {e : SqlEngine} (he : e.visible = [("__CATALOG:ITEMS", "ID|I|1\nNAME|T|0")]) :
    e.HasTable "ITEMS" itemsSchema ∧ Insertable e itemsSchema itemsRow ⟨"ID", .integer, true⟩
      (.integer ⟨-2 ^ 63, by decide⟩) := by
  refine ⟨⟨"ID|I|1\nNAME|T|0", ?_, by decide +kernel⟩, ⟨?_, ⟨0, ⟨rfl, rfl⟩, rfl⟩, by simp, ?_, ?_⟩⟩
  · rw [he]
    exact List.mem_singleton.2 rfl
  · exact .cons rfl (.cons rfl .nil)
  · rintro ⟨rows, key, row, i, hrows, hmem, -⟩
    obtain ⟨text, hmem, hstart, -⟩ := (hrows.mem key row).1 hmem
    rw [he] at hmem
    cases List.mem_singleton.1 hmem
    exact absurd hstart (by decide +kernel)
  · intro key hkey
    have hval : rowKey itemsSchema itemsRow = .ok "__ROW:ITEMS:490000000000000080" := by decide +kernel
    rw [hval] at hkey
    cases hkey
    refine refusal_eq_none.1 ?_
    decide +kernel

theorem literals_survive_items :
    insertText itemsSchema itemsRow = "INSERT INTO ITEMS (ID, NAME) VALUES (-9223372036854775808, 'it''s')" ∧
    ((SqlEngine.execute (insertText itemsSchema itemsRow)).run (itemsAfter "")).1 = .ok [.affected 1] ∧
    ((SqlEngine.execute (insertText itemsSchema itemsRow)).run (itemsAfter "")).2.Finds itemsSchema
      ⟨"ID", .integer, true⟩ (.integer ⟨-2 ^ 63, by decide⟩) itemsRow := by
  obtain ⟨htable, hrow⟩ := insertable_itemsRow (show (itemsAfter "").visible = _ by decide +kernel)
  obtain ⟨hinsert, hselect⟩ := literals_survive (itemsAfter_reached "") htable hrow fun _ => by decide +kernel
  exact ⟨by decide +kernel, hinsert, (hselect (by decide)).1⟩

/-- The table of items, when the ids of transactions are used up. -/
theorem exists_items_exhausted : ∃ e : SqlEngine, e.Reached ∧
    e.visible = [("__CATALOG:ITEMS", "ID|I|1\nNAME|T|0")] ∧
    ((SqlEngine.execute (insertText itemsSchema itemsRow)).run e).1 =
      Mvcc.invalid "mvcc: transaction id exhausted" := by
  obtain ⟨e, hreached, hrep⟩ := exists_reached_nextTxn (2 ^ 64 - 3) (by norm_num)
  have hparse : parse "create table items (id integer primary key, name text)" =
      .ok [.createTable "ITEMS" itemsSchema.columns] := by decide +kernel
  have hready : e.Ready := hrep.ready.2 fun _ => by decide +kernel
  have hcreate : ((executeData (.createTable "ITEMS" itemsSchema.columns) : Act Tables SqlResult).run .empty).1 =
      .ok (.affected 0) := by decide +kernel
  obtain ⟨-, hrep'⟩ := execute_run hparse (by simp [Statement.OnTables]) hrep hready (Prod.ext hcreate rfl)
  refine ⟨_, .executed _ hreached, by rw [hrep'.visible]; decide +kernel, ?_⟩
  have hparse' : parse (insertText itemsSchema itemsRow) = .ok [.insert "ITEMS" ["ID", "NAME"] itemsRow] := by
    decide +kernel
  have hexec : ∀ e, (SqlEngine.execute (insertText itemsSchema itemsRow)).run e =
      (SqlEngine.executeAll [.insert "ITEMS" ["ID", "NAME"] itemsRow]).run e := by
    intro e
    rw [SqlEngine.execute, hparse']
    rfl
  rw [hexec, (executeAll_simulates _ _ _ hrep').1]
  decide +kernel

/-- The row does not survive when the transaction that it was inserted in is still open, and it is not
    inserted when there are no ids for transactions left. -/
theorem literals_lost :
    (∃ e e' : SqlEngine, e.Reached ∧ e.HasTable "ITEMS" itemsSchema ∧
      Insertable e itemsSchema itemsRow ⟨"ID", .integer, true⟩ (.integer ⟨-2 ^ 63, by decide⟩) ∧
      SqlEngine.open ((SqlEngine.execute (insertText itemsSchema itemsRow)).run e).2.disk = .ok e' ∧
      ((SqlEngine.execute (selectText itemsSchema ⟨"ID", .integer, true⟩
        (.integer ⟨-2 ^ 63, by decide⟩))).run e').1 = .ok [.rows ["ID", "NAME"] []]) ∧
    ∃ e : SqlEngine, e.Reached ∧ e.HasTable "ITEMS" itemsSchema ∧
      Insertable e itemsSchema itemsRow ⟨"ID", .integer, true⟩ (.integer ⟨-2 ^ 63, by decide⟩) ∧
      ((SqlEngine.execute (insertText itemsSchema itemsRow)).run e).1 =
        Mvcc.invalid "mvcc: transaction id exhausted" := by
  constructor
  · obtain ⟨htable, hrow⟩ := insertable_itemsRow (show (itemsAfter "begin").visible = _ by decide +kernel)
    have hopen : (SqlEngine.open ((SqlEngine.execute (insertText itemsSchema itemsRow)).run
        (itemsAfter "begin")).2.disk).map (fun e => ((SqlEngine.execute (selectText itemsSchema
          ⟨"ID", .integer, true⟩ (.integer ⟨-2 ^ 63, by decide⟩))).run e).1) =
        .ok (.ok [.rows ["ID", "NAME"] []]) := by decide +kernel
    rcases hd : SqlEngine.open ((SqlEngine.execute (insertText itemsSchema itemsRow)).run
        (itemsAfter "begin")).2.disk with fault | e'
    · rw [hd] at hopen
      cases hopen
    · rw [hd] at hopen
      exact ⟨itemsAfter "begin", e', itemsAfter_reached _, htable, hrow, hd, Except.ok.inj hopen⟩
  · obtain ⟨e, hreached, hvisible, hrun⟩ := exists_items_exhausted
    obtain ⟨htable, hrow⟩ := insertable_itemsRow hvisible
    exact ⟨e, hreached, htable, hrow, hrun⟩

end NutDb.Sql
