/-
  Scripts, from their texts.

  A statement is written token by token, with a space before each token
  (`Statement.kinds`), and a script with a semicolon between two statements.
  The parser reads every statement up to a token that ends it, and returns no
  statement that cannot be written: the statements it accepts are those that
  are `Printable`, and writing them is no loss (`parse_script`).
-/
import NutDb.Sql.Expressions

namespace NutDb.Sql

open Lib Act

/-! ## Written statements -/

/-- The word of a type. -/
def DataType.word : DataType → String
  | .integer => "INTEGER"
  | .text => "TEXT"
  | .boolean => "BOOLEAN"

/-- The tokens of a column of a table. -/
def ColumnDef.kinds (column : ColumnDef) : List TokenKind :=
  .word column.name :: .word column.dataType.word ::
    if column.primaryKey then [.word "PRIMARY", .word "KEY"] else []

/-- The tokens of a filter, if there is one. -/
def filterKinds : Option Expr → List TokenKind
  | none => []
  | some e => .word "WHERE" :: e.kinds

/-- A count as an integer, the largest one if it is larger. -/
def I64.clamp (n : ℕ) : I64 := ⟨(min n (2 ^ 63 - 1) : ℕ), by omega⟩

/-- The tokens of a select behind its first word. -/
def Select.kinds (select : Select) : List TokenKind :=
  select.projection.kinds ++ .word "FROM" :: .word select.table ::
    (filterKinds select.filter ++ (orderKinds select.orderBy ++ limitKinds (select.limit.map I64.clamp)))

/-- The tokens of a statement. -/
def Statement.kinds : Statement → List TokenKind
  | .createTable table columns => .word "CREATE" :: .word "TABLE" :: .word table :: .leftParen ::
      ([.comma].intercalate (columns.map ColumnDef.kinds) ++ [.rightParen])
  | .insert table columns values => .word "INSERT" :: .word "INTO" :: .word table :: .leftParen ::
      ((columns.map TokenKind.word).intersperse .comma ++ .rightParen :: .word "VALUES" :: .leftParen ::
        ((values.map Value.token).intersperse .comma ++ [.rightParen]))
  | .select query => .word "SELECT" :: query.kinds
  | .update table assignments filter => .word "UPDATE" :: .word table :: .word "SET" ::
      ([.comma].intercalate (assignments.map assignmentKinds) ++ filterKinds filter)
  | .delete table filter => .word "DELETE" :: .word "FROM" :: .word table :: filterKinds filter
  | .begin => [.word "BEGIN"]
  | .commit => [.word "COMMIT"]
  | .rollback => [.word "ROLLBACK"]
  | .explain query => .word "EXPLAIN" :: .word "SELECT" :: query.kinds

/-- The text of a script. -/
def script (statements : List Statement) : String :=
  spaced ([.semicolon].intercalate (statements.map Statement.kinds))

/-- A select that can be written. -/
structure Select.Printable (select : Select) : Prop where
  projection : select.projection.Named
  table : IsName select.table
  filter : ∀ e ∈ select.filter, e.Named
  orderBy : ∀ order ∈ select.orderBy, IsName order.1
  limit : ∀ n ∈ select.limit, n < 2 ^ 63

/-- A statement that can be written. -/
def Statement.Printable : Statement → Prop
  | .createTable table columns => IsName table ∧ columns ≠ [] ∧ ∀ column ∈ columns, IsName column.name
  | .insert table columns values =>
    IsName table ∧ (columns ≠ [] ∧ ∀ name ∈ columns, IsName name) ∧ values ≠ []
  | .select query | .explain query => query.Printable
  | .update table assignments filter =>
    IsName table ∧ (assignments ≠ [] ∧ ∀ assignment ∈ assignments, IsName assignment.1) ∧ ∀ e ∈ filter, e.Named
  | .delete table filter => IsName table ∧ ∀ e ∈ filter, e.Named
  | .begin | .commit | .rollback => True

theorem I64.clamp_toNat {n : ℕ} (h : n < 2 ^ 63) : (I64.clamp n).val.toNat = n := by
  simp only [I64.clamp]
  omega

/-! ## Parts of statements -/

namespace Parser

/-- No statement goes on with the token. -/
def Ends (kind : TokenKind) : Prop := kind = .semicolon ∨ kind = .done

theorem Ends.stops {kind : TokenKind} (h : Ends kind) : Stops kind := by
  rcases h with rfl | rfl <;> exact ⟨⟨rfl, by decide⟩, by decide⟩

theorem Ends.ne_word {kind : TokenKind} (h : Ends kind) (w : String) : kind ≠ .word w := by
  rcases h with rfl | rfl <;> exact fun h => nomatch h

section Rules
variable {tokens : List Token} {α β : Type} {x : Act ℕ α} {f : α → Act ℕ β} {a : α} {b : β}
  {ks ks' : List TokenKind} {k : TokenKind} {P Q : TokenKind → Prop}

theorem readsUpTo_pure : ReadsUpTo tokens (pure a) [] a P := fun _ _ _ => reads_pure a

/-- One token, and what follows. -/
theorem ReadsUpTo.cons (hx : ∀ rest, Reads tokens x (k :: rest) a rest) (hf : ReadsUpTo tokens (f a) ks b Q) :
    ReadsUpTo tokens (x >>= f) (k :: ks) b Q := fun kind rest hkind => (hx _).bind (hf kind rest hkind)

/-- Two parts, when the first one may stop before the second. -/
theorem ReadsUpTo.append (hx : ReadsUpTo tokens x ks a P) (hf : ReadsUpTo tokens (f a) ks' b Q)
    (hseam : ∀ kind rest, Q kind → ∃ next more, ks' ++ kind :: rest = next :: more ∧ P next) :
    ReadsUpTo tokens (x >>= f) (ks ++ ks') b Q := by
  intro kind rest hkind
  obtain ⟨next, more, heq, hnext⟩ := hseam kind rest hkind
  have hrest := hf kind rest hkind
  rw [heq] at hrest
  rw [List.append_assoc, heq]
  exact (hx next more hnext).bind hrest

theorem ReadsUpTo.weaken (hx : ReadsUpTo tokens x ks a P) (h : ∀ kind, Q kind → P kind) : ReadsUpTo tokens x ks a Q :=
  fun kind rest hkind => hx kind rest (h kind hkind)

/-- A part behind which nothing else is read. -/
theorem ReadsUpTo.map (hx : ReadsUpTo tokens x ks a P) (g : α → β) :
    ReadsUpTo tokens (x >>= fun a => pure (g a)) ks (g a) P :=
  fun kind rest hkind => (hx kind rest hkind).bind (reads_pure _)

/-- The tokens are no more than all tokens. -/
theorem readsUpTo_of_length (h : ks.length ≤ tokens.length → ReadsUpTo tokens x ks a P) :
    ReadsUpTo tokens x ks a P := by
  intro kind rest hkind offset hahead
  have hle := hahead.length_le
  rw [List.length_append] at hle
  exact h (by omega) kind rest hkind offset hahead

/-- The next token, or the one behind. -/
theorem seam_nil {rest : List TokenKind} (h : P k) : ∃ next more, [] ++ k :: rest = next :: more ∧ P next :=
  ⟨k, rest, rfl, h⟩

theorem seam_cons {kind : TokenKind} {rest : List TokenKind} (h : P k) :
    ∃ next more, (k :: ks) ++ kind :: rest = next :: more ∧ P next := ⟨k, _, rfl, h⟩

/-- **Items between commas**, each up to the comma or the token behind all. -/
theorem readsUpTo_commaSeparated {item : Act ℕ α} {g : α → List TokenKind} {items : List α}
    (hitem : ∀ a, ReadsUpTo tokens item (g a) a P) (hcomma : P .comma) (hne : items ≠ []) {fuel : ℕ}
    (hfuel : items.length ≤ fuel) :
    ReadsUpTo tokens (commaSeparated tokens item fuel) ([.comma].intercalate (items.map g)) items
      fun kind => P kind ∧ kind ≠ .comma := by
  induction items generalizing fuel with
  | nil => exact absurd rfl hne
  | cons a items ih =>
    obtain ⟨fuel, rfl⟩ : ∃ n, fuel = n + 1 := Nat.exists_eq_succ_of_ne_zero (by rintro rfl; cases hfuel)
    cases items with
    | nil =>
      rw [List.map_singleton, List.intercalate_singleton]
      intro kind rest ⟨hP, hother⟩
      exact (hitem a kind rest hP).bind ((reads_consumeSimple_other hother).bind (reads_pure _))
    | cons a' items =>
      have hrest := ih (List.cons_ne_nil _ _) (Nat.le_of_succ_le_succ hfuel)
      rw [List.map_cons, List.map_cons, List.intercalate_cons_cons, List.append_assoc, List.singleton_append]
      exact (hitem a).append (.cons (fun _ => reads_consumeSimple) (hrest.map _)) fun kind rest _ => seam_cons hcomma

theorem length_le_intercalate {c : TokenKind} {items : List α} {g : α → List TokenKind} (hg : ∀ a, g a ≠ []) :
    items.length ≤ ([c].intercalate (items.map g)).length := by
  induction items with
  | nil => exact le_rfl
  | cons a items ih =>
    have hpos := List.length_pos_of_ne_nil (hg a)
    cases items with
    | nil =>
      rw [List.map_singleton, List.intercalate_singleton]
      exact hpos
    | cons a' items =>
      rw [List.map_cons, List.map_cons, List.intercalate_cons_cons, List.length_append, List.length_append,
        List.length_cons]
      rw [List.map_cons] at ih
      omega

end Rules

section Parts
variable {tokens : List Token}

/-- A column ends with the token. -/
def NoPrimary (kind : TokenKind) : Prop := kind ≠ .word "PRIMARY"

theorem readsUpTo_columnDef (column : ColumnDef) :
    ReadsUpTo tokens (columnDef tokens) column.kinds column NoPrimary := by
  obtain ⟨name, dataType, primaryKey⟩ := column
  refine .cons (fun _ => reads_word name) (.cons (fun _ => reads_word dataType.word) ?_)
  have htype : namedType tokens dataType.word = pure dataType := by cases dataType <;> rfl
  rw [htype]
  change ReadsUpTo tokens (consumeWord tokens "PRIMARY" >>= _) _ _ _
  cases primaryKey with
  | true =>
    exact .cons (fun _ => reads_consumeWord "PRIMARY") (.cons (fun _ => reads_expectWord "KEY") readsUpTo_pure)
  | false => exact fun kind rest hkind => (reads_consumeWord_other hkind).bind (reads_pure _)

theorem readsUpTo_filter {filter : Option Expr} (h : ∀ e ∈ filter, e.Named) :
    ReadsUpTo tokens (Parser.filter tokens tokens.length) (filterKinds filter) filter
      fun kind => Stops kind ∧ kind ≠ .word "WHERE" := by
  cases filter with
  | none => exact fun kind rest hkind => (reads_consumeWord_other hkind.2).bind (reads_pure _)
  | some e => exact fun kind rest hkind => (filters_expr (h e rfl)).2 tokens kind rest hkind.1

theorem readsUpTo_limit {limit : Option ℕ} (h : ∀ n ∈ limit, n < 2 ^ 63) :
    ReadsUpTo tokens (Parser.limit tokens) (limitKinds (limit.map I64.clamp)) limit Ends := by
  cases limit with
  | none => exact fun kind rest hkind => (reads_consumeWord_other (hkind.ne_word _)).bind (reads_pure _)
  | some n =>
    intro kind rest _
    refine (reads_consumeWord "LIMIT").bind (reads_advance (by simp) fun token hkind => ?_)
    have hpos : 0 ≤ (I64.clamp n).val := Int.natCast_nonneg _
    rw [hkind]
    simp only [if_pos hpos, I64.clamp_toNat (h n rfl)]
    exact reads_pure _

theorem readsUpTo_orderBy (orderBy : Option (String × Bool)) :
    ReadsUpTo tokens (Parser.orderBy tokens) (orderKinds orderBy) orderBy fun kind => kind ≠ .word "ORDER" := by
  cases orderBy with
  | none => exact fun kind rest hkind => (reads_consumeWord_other hkind).bind (reads_pure _)
  | some order =>
    obtain ⟨column, ascending⟩ := order
    refine .cons (fun _ => reads_consumeWord "ORDER") (.cons (fun _ => reads_expectWord "BY")
      (.cons (fun _ => reads_word column) ?_))
    cases ascending with
    | true =>
      exact fun kind rest _ => (reads_consumeWord_other (by simp)).bind ((reads_consumeWord "ASC").bind (reads_pure _))
    | false => exact .cons (fun _ => reads_consumeWord "DESC") readsUpTo_pure

theorem seam_limit {kind : TokenKind} {rest : List TokenKind} (limit : Option I64) (h : Ends kind) :
    ∃ next more, limitKinds limit ++ kind :: rest = next :: more ∧ next ≠ .word "ORDER" := by
  cases limit with
  | none => exact seam_nil (h.ne_word _)
  | some value => exact seam_cons (by simp)

theorem seam_orderBy {kind : TokenKind} {rest : List TokenKind} (orderBy : Option (String × Bool)) (limit : Option I64)
    (h : Ends kind) : ∃ next more, (orderKinds orderBy ++ limitKinds limit) ++ kind :: rest = next :: more ∧
      Stops next ∧ next ≠ .word "WHERE" := by
  have hstops : ∀ w, w ≠ "AND" → w ≠ "OR" → w ≠ "WHERE" → Stops (.word w) ∧ TokenKind.word w ≠ .word "WHERE" :=
    fun w hand hor hwhere => ⟨⟨⟨rfl, by simpa using hand⟩, by simpa using hor⟩, by simpa using hwhere⟩
  cases orderBy with
  | some order => exact seam_cons (hstops "ORDER" (by decide) (by decide) (by decide))
  | none =>
    cases limit with
    | none => exact seam_nil ⟨h.stops, h.ne_word _⟩
    | some value => exact seam_cons (hstops "LIMIT" (by decide) (by decide) (by decide))

/-- **A select** behind its first word. -/
theorem readsUpTo_select {select : Select} (h : select.Printable) :
    ReadsUpTo tokens (selectAfterKeyword tokens tokens.length) select.kinds select Ends := by
  obtain ⟨table, projection, filter, orderBy, limit⟩ := select
  have hrest : ReadsUpTo tokens (do
      let filter ← Parser.filter tokens tokens.length
      let orderBy ← Parser.orderBy tokens
      let limit ← Parser.limit tokens
      return (⟨table, projection, filter, orderBy, limit⟩ : Select))
      (filterKinds filter ++ (orderKinds orderBy ++ limitKinds (limit.map I64.clamp)))
      ⟨table, projection, filter, orderBy, limit⟩ Ends := by
    refine (readsUpTo_filter h.filter).append ?_ fun kind rest hkind => seam_orderBy orderBy _ hkind
    refine (readsUpTo_orderBy orderBy).append ?_ fun kind rest hkind => seam_limit _ hkind
    exact (readsUpTo_limit h.limit).map fun limit => (⟨table, projection, filter, orderBy, limit⟩ : Select)
  intro kind rest hkind
  rw [Select.kinds, List.append_assoc]
  exact (reads_projection h.projection _).bind ((reads_expectWord "FROM").bind
    ((reads_word table).bind (hrest kind rest hkind)))

theorem readsUpTo_insert {table : String} {columns : List String} {values : List Value} (hcolumns : columns ≠ [])
    (hvalues : values ≠ []) :
    ReadsUpTo tokens (insert tokens) (.word table :: .leftParen :: ((columns.map TokenKind.word).intersperse .comma ++
      .rightParen :: .word "VALUES" :: .leftParen :: ((values.map Value.token).intersperse .comma ++
        [.rightParen]))) (.insert table columns values) Ends := by
  refine readsUpTo_of_length fun hlen => ?_
  simp only [List.length_cons, List.length_append, List.length_intersperse, List.length_map] at hlen
  have hn : columns.length ≤ tokens.length := by omega
  have hm : values.length ≤ tokens.length := by omega
  have hstop : ∀ kinds, Reads tokens (consumeSimple tokens .rightParen) (.rightParen :: kinds) true kinds :=
    fun kinds => reads_consumeSimple
  have hnames := fun kinds => reads_identifiersUntil (hstop kinds)
    (fun kinds => reads_consumeSimple_other (by simp)) hcolumns hn
  have hliteral : ∀ v, ReadsUpTo tokens (literal tokens) [Value.token v] v fun _ => True :=
    fun v kind rest _ => reads_literal v
  have hliterals := readsUpTo_commaSeparated hliteral trivial hvalues hm
  rw [intercalate_singletons] at hliterals
  refine .cons (fun _ => reads_word table) (.cons (fun _ => reads_expectSimple _) fun kind rest hkind => ?_)
  simp only [List.append_assoc, List.cons_append, List.nil_append]
  refine (hnames _).bind ((reads_expectWord "VALUES").bind ((reads_expectSimple _).bind ?_))
  exact (hliterals .rightParen (kind :: rest) ⟨trivial, by simp⟩).bind ((reads_expectSimple _).bind (reads_pure _))

theorem readsUpTo_createTable {table : String} {columns : List ColumnDef} (hcolumns : columns ≠ []) :
    ReadsUpTo tokens (createTable tokens) (.word table :: .leftParen ::
      ([.comma].intercalate (columns.map ColumnDef.kinds) ++ [.rightParen])) (.createTable table columns) Ends := by
  refine readsUpTo_of_length fun hlen => ?_
  have hitems : columns.length ≤ ([TokenKind.comma].intercalate (columns.map ColumnDef.kinds)).length :=
    length_le_intercalate fun _ => List.cons_ne_nil _ _
  simp only [List.length_cons, List.length_append] at hlen
  have hfuel : columns.length ≤ tokens.length := by omega
  have hlist : ReadsUpTo tokens (commaSeparated tokens (columnDef tokens) tokens.length) _ columns _ :=
    readsUpTo_commaSeparated readsUpTo_columnDef (by simp [NoPrimary]) hcolumns hfuel
  refine .cons (fun _ => reads_word table) (.cons (fun _ => reads_expectSimple _) ?_)
  refine hlist.append ?_ fun kind rest _ => seam_cons (by simp [NoPrimary])
  exact .cons (fun _ => reads_expectSimple _) readsUpTo_pure

theorem readsUpTo_update {table : String} {assignments : List (String × Value)} (hne : assignments ≠ [])
    {filter : Option Expr} (h : ∀ e ∈ filter, e.Named) :
    ReadsUpTo tokens (Parser.update tokens tokens.length) (.word table :: .word "SET" ::
      ([.comma].intercalate (assignments.map assignmentKinds) ++ filterKinds filter))
      (.update table assignments filter) Ends := by
  refine readsUpTo_of_length fun hlen => ?_
  have hitems : assignments.length ≤ ([TokenKind.comma].intercalate (assignments.map assignmentKinds)).length :=
    length_le_intercalate fun _ => List.cons_ne_nil _ _
  simp only [List.length_cons, List.length_append] at hlen
  have hfuel : assignments.length ≤ tokens.length := by omega
  have hassignment : ∀ a, ReadsUpTo tokens (assignment tokens) (assignmentKinds a) a fun _ => True :=
    fun a kind rest _ => reads_assignment a (kind :: rest)
  have hlist := readsUpTo_commaSeparated hassignment trivial hne hfuel
  have hfilter : ReadsUpTo tokens (Parser.filter tokens tokens.length) (filterKinds filter) filter Ends :=
    (readsUpTo_filter h).weaken fun kind hkind => ⟨hkind.stops, hkind.ne_word _⟩
  refine .cons (fun _ => reads_word table) (.cons (fun _ => reads_expectWord "SET") ?_)
  refine hlist.append (hfilter.map _) fun kind rest hkind => ?_
  · cases filter with
    | none => exact seam_nil ⟨trivial, by rcases hkind with rfl | rfl <;> simp⟩
    | some e => exact seam_cons ⟨trivial, by simp⟩

theorem readsUpTo_delete {table : String} {filter : Option Expr} (h : ∀ e ∈ filter, e.Named) :
    ReadsUpTo tokens (Parser.delete tokens tokens.length) (.word table :: filterKinds filter) (.delete table filter) Ends := by
  have hfilter : ReadsUpTo tokens (Parser.filter tokens tokens.length) (filterKinds filter) filter Ends :=
    (readsUpTo_filter h).weaken fun kind hkind => ⟨hkind.stops, hkind.ne_word _⟩
  exact .cons (fun _ => reads_word table) (hfilter.map _)

/-- A statement after its first word. -/
theorem ReadsUpTo.keyword {α : Type} {w : String} {ks : List TokenKind} {a : α} {x y : Act ℕ α}
    {P : TokenKind → Prop} (hx : ReadsUpTo tokens x ks a P) :
    ReadsUpTo tokens (consumeWord tokens w >>= fun found => if found = true then x else y) (.word w :: ks) a P :=
  .cons (fun _ => reads_consumeWord w) hx

/-- A statement with another first word. -/
theorem ReadsUpTo.other {α : Type} {w w' : String} {ks : List TokenKind} {a : α} {x y : Act ℕ α}
    {P : TokenKind → Prop} (hy : ReadsUpTo tokens y (.word w' :: ks) a P) (hne : w' ≠ w) :
    ReadsUpTo tokens (consumeWord tokens w >>= fun found => if found = true then x else y) (.word w' :: ks) a P :=
  fun kind rest hkind => (reads_consumeWord_other (by simpa using hne)).bind (hy kind rest hkind)

/-- **Statements** are read as they were written. -/
theorem readsUpTo_statement {s : Statement} (h : s.Printable) :
    ReadsUpTo tokens (statement tokens tokens.length) s.kinds s Ends := by
  cases s with
  | createTable table columns =>
    exact .keyword (.cons (fun _ => reads_expectWord "TABLE") (readsUpTo_createTable h.2.1))
  | insert table columns values =>
    refine .other (.keyword (.cons (fun _ => reads_expectWord "INTO") ?_)) (by decide)
    exact readsUpTo_insert h.2.1.1 h.2.2
  | select query => exact .other (.other (.keyword ((readsUpTo_select h).map _)) (by decide)) (by decide)
  | update table assignments filter =>
    refine .other (.other (.other (.keyword ?_) (by decide)) (by decide)) (by decide)
    exact readsUpTo_update h.2.1.1 h.2.2
  | delete table filter =>
    refine .other (.other (.other (.other (.keyword ?_) (by decide)) (by decide)) (by decide)) (by decide)
    exact .cons (fun _ => reads_expectWord "FROM") (readsUpTo_delete h.2)
  | begin =>
    refine .other (.other (.other (.other (.other (.keyword ?_) (by decide)) (by decide)) (by decide)) (by decide))
      (by decide)
    exact readsUpTo_pure
  | commit =>
    refine .other (.other (.other (.other (.other (.other (.keyword ?_) (by decide)) (by decide)) (by decide))
      (by decide)) (by decide)) (by decide)
    exact readsUpTo_pure
  | rollback =>
    refine .other (.other (.other (.other (.other (.other (.other (.keyword ?_) (by decide)) (by decide)) (by decide))
      (by decide)) (by decide)) (by decide)) (by decide)
    exact readsUpTo_pure
  | explain query =>
    refine .other (.other (.other (.other (.other (.other (.other (.other (.keyword ?_) (by decide)) (by decide))
      (by decide)) (by decide)) (by decide)) (by decide)) (by decide)) (by decide)
    exact .cons (fun _ => reads_expectWord "SELECT") ((readsUpTo_select h).map _)

/-- A statement begins with a word. -/
theorem kinds_eq_cons (s : Statement) : ∃ w ks, s.kinds = .word w :: ks := by
  cases s <;> exact ⟨_, _, rfl⟩

/-- **The loop of `parse`** reads one statement after another. -/
theorem reads_statements {ss : List Statement} (hne : ss ≠ []) (h : ∀ s ∈ ss, s.Printable) {fuel : ℕ}
    (hfuel : ss.length < fuel) :
    Reads tokens (statements tokens tokens.length fuel)
      ([.semicolon].intercalate (ss.map Statement.kinds) ++ [.done]) ss [.done] := by
  induction ss generalizing fuel with
  | nil => exact absurd rfl hne
  | cons s ss ih =>
    obtain ⟨fuel, rfl⟩ : ∃ n, fuel = n + 1 := Nat.exists_eq_succ_of_ne_zero (by rintro rfl; cases hfuel)
    obtain ⟨hs, hss⟩ := List.forall_mem_cons.1 h
    obtain ⟨w, ks, hks⟩ := kinds_eq_cons s
    -- what the turn begins with is neither the end nor a semicolon
    have hturn : ∀ {k rest x}, Reads tokens x (s.kinds ++ k :: rest) (s :: ss) [.done] →
        Reads tokens (do
          if ← atEnd tokens then return []
          else if ← consumeSimple tokens .semicolon then statements tokens tokens.length fuel
          else x) (s.kinds ++ k :: rest) (s :: ss) [.done] := by
      intro k rest x hx
      rw [hks] at hx ⊢
      exact (reads_atEnd rfl).bind ((reads_consumeSimple_other (by simp)).bind hx)
    cases ss with
    | nil =>
      have hend : Reads tokens (statements tokens tokens.length fuel) [.done] [] [.done] := by
        obtain ⟨fuel, rfl⟩ : ∃ n, fuel = n + 1 :=
          Nat.exists_eq_succ_of_ne_zero (by rintro rfl; exact absurd hfuel (Nat.lt_irrefl _))
        exact (reads_atEnd rfl).bind (reads_pure _)
      rw [List.map_singleton, List.intercalate_singleton]
      refine hturn ((readsUpTo_statement hs _ _ (Or.inr rfl)).bind ?_)
      exact (reads_consumeSimple_other (by simp)).bind ((reads_atEnd rfl).bind (hend.bind (reads_pure _)))
    | cons s' ss =>
      have hrest := ih (List.cons_ne_nil _ _) hss (Nat.lt_of_succ_lt_succ hfuel)
      rw [List.map_cons, List.map_cons, List.intercalate_cons_cons, List.append_assoc, List.append_assoc,
        List.singleton_append]
      refine hturn ((readsUpTo_statement hs _ _ (Or.inl rfl)).bind ?_)
      exact reads_consumeSimple.bind (hrest.bind (reads_pure _))

end Parts

end Parser

/-! ## Texts -/

section Writable

open NutDb.Sql.Parser

theorem writable_filterKinds {filter : Option Expr} (h : ∀ e ∈ filter, e.Named) :
    ∀ kind ∈ filterKinds filter, kind.Writable := by
  cases filter with
  | none => exact fun kind hkind => absurd hkind List.not_mem_nil
  | some e => exact List.forall_mem_cons.2 ⟨writable_keyword (by decide +kernel), writable_kinds (h e rfl)⟩

theorem Select.Printable.writable {select : Select} (h : select.Printable) : ∀ kind ∈ select.kinds, kind.Writable := by
  refine List.forall_mem_append.2 ⟨h.projection.writable, List.forall_mem_cons.2
    ⟨writable_keyword (by decide +kernel), List.forall_mem_cons.2 ⟨writable_word h.table, ?_⟩⟩⟩
  exact List.forall_mem_append.2 ⟨writable_filterKinds h.filter, List.forall_mem_append.2
    ⟨writable_orderKinds h.orderBy, writable_limitKinds _⟩⟩

theorem writable_columnDef {column : ColumnDef} (h : IsName column.name) : ∀ kind ∈ column.kinds, kind.Writable := by
  obtain ⟨name, dataType, primaryKey⟩ := column
  have htype : (TokenKind.word dataType.word).Writable := by
    cases dataType <;> exact writable_keyword (by decide +kernel)
  refine List.forall_mem_cons.2 ⟨writable_word h, List.forall_mem_cons.2 ⟨htype, ?_⟩⟩
  cases primaryKey with
  | true =>
    exact List.forall_mem_cons.2 ⟨writable_keyword (by decide +kernel),
      List.forall_mem_singleton.2 (writable_keyword (by decide +kernel))⟩
  | false => exact fun kind hkind => absurd hkind List.not_mem_nil

theorem writable_intersperse {kinds : List TokenKind} (h : ∀ kind ∈ kinds, kind.Writable) :
    ∀ kind ∈ kinds.intersperse .comma, kind.Writable := by
  have hmap : kinds.map id = kinds := List.map_id _
  rw [← hmap, ← intercalate_singletons]
  exact writable_intercalate (List.forall_mem_map.2 fun kind hkind => List.forall_mem_singleton.2 (h kind hkind))

theorem writable_paren : TokenKind.leftParen.Writable ∧ TokenKind.rightParen.Writable :=
  ⟨writable_symbol (by decide) (by simp), writable_symbol (by decide) (by simp)⟩

/-- **The tokens of a statement** can be written. -/
theorem Statement.Printable.writable {s : Statement} (h : s.Printable) : ∀ kind ∈ s.kinds, kind.Writable := by
  cases s with
  | createTable table columns =>
    refine List.forall_mem_cons.2 ⟨writable_keyword (by decide +kernel), List.forall_mem_cons.2
      ⟨writable_keyword (by decide +kernel), List.forall_mem_cons.2 ⟨writable_word h.1, List.forall_mem_cons.2
        ⟨writable_paren.1, List.forall_mem_append.2 ⟨?_, List.forall_mem_singleton.2 writable_paren.2⟩⟩⟩⟩⟩
    exact writable_intercalate (List.forall_mem_map.2 fun column hcolumn => writable_columnDef (h.2.2 column hcolumn))
  | insert table columns values =>
    refine List.forall_mem_cons.2 ⟨writable_keyword (by decide +kernel), List.forall_mem_cons.2
      ⟨writable_keyword (by decide +kernel), List.forall_mem_cons.2 ⟨writable_word h.1, List.forall_mem_cons.2
        ⟨writable_paren.1, List.forall_mem_append.2 ⟨writable_intersperse ?_, ?_⟩⟩⟩⟩⟩
    · exact List.forall_mem_map.2 fun name hname => writable_word (h.2.1.2 name hname)
    · refine List.forall_mem_cons.2 ⟨writable_paren.2, List.forall_mem_cons.2
        ⟨writable_keyword (by decide +kernel), List.forall_mem_cons.2 ⟨writable_paren.1, List.forall_mem_append.2
          ⟨writable_intersperse ?_, List.forall_mem_singleton.2 writable_paren.2⟩⟩⟩⟩
      exact List.forall_mem_map.2 fun v _ => writable_token v
  | select query => exact List.forall_mem_cons.2 ⟨writable_keyword (by decide +kernel), Select.Printable.writable h⟩
  | update table assignments filter =>
    refine List.forall_mem_cons.2 ⟨writable_keyword (by decide +kernel), List.forall_mem_cons.2
      ⟨writable_word h.1, List.forall_mem_cons.2 ⟨writable_keyword (by decide +kernel), ?_⟩⟩⟩
    exact List.forall_mem_append.2 ⟨writable_assignments h.2.1.2, writable_filterKinds h.2.2⟩
  | delete table filter =>
    exact List.forall_mem_cons.2 ⟨writable_keyword (by decide +kernel), List.forall_mem_cons.2
      ⟨writable_keyword (by decide +kernel), List.forall_mem_cons.2 ⟨writable_word h.1, writable_filterKinds h.2⟩⟩⟩
  | begin | commit | rollback => exact List.forall_mem_singleton.2 (writable_keyword (by decide +kernel))
  | explain query =>
    exact List.forall_mem_cons.2 ⟨writable_keyword (by decide +kernel), List.forall_mem_cons.2
      ⟨writable_keyword (by decide +kernel), Select.Printable.writable h⟩⟩

theorem writable_script {ss : List Statement} (h : ∀ s ∈ ss, s.Printable) :
    ∀ kind ∈ [TokenKind.semicolon].intercalate (ss.map Statement.kinds), kind.Writable := by
  induction ss with
  | nil => exact fun kind hkind => absurd hkind List.not_mem_nil
  | cons s ss ih =>
    obtain ⟨hs, hss⟩ := List.forall_mem_cons.1 h
    cases ss with
    | nil =>
      rw [List.map_singleton, List.intercalate_singleton]
      exact hs.writable
    | cons s' ss =>
      rw [List.map_cons, List.map_cons, List.intercalate_cons_cons]
      exact List.forall_mem_append.2 ⟨List.forall_mem_append.2 ⟨hs.writable,
        List.forall_mem_singleton.2 (writable_symbol (by decide) (by simp))⟩, ih hss⟩

end Writable

/-- **A script is read back** from its text. -/
theorem parse_of_printable {ss : List Statement} (hne : ss ≠ []) (h : ∀ s ∈ ss, s.Printable) :
    parse (script ss) = .ok ss := by
  have hlex : Lexes (script ss) _ := lexes_spaced (writable_script h)
  obtain ⟨tokens, htokens, hkinds⟩ := hlex (utf8 (script ss)).length 0 le_rfl
  have hahead : Parser.Ahead tokens 0 ([.semicolon].intercalate (ss.map Statement.kinds) ++ [.done]) := hkinds
  have hlen : ss.length < tokens.length + 1 := by
    have hle := hahead.length_le
    have hitems : ss.length ≤ ([TokenKind.semicolon].intercalate (ss.map Statement.kinds)).length := by
      refine Parser.length_le_intercalate fun s => ?_
      obtain ⟨w, ks, hks⟩ := Parser.kinds_eq_cons s
      rw [hks]
      exact List.cons_ne_nil _ _
    rw [List.length_append] at hle
    omega
  obtain ⟨offset, hrun, -⟩ := Parser.reads_statements hne h hlen 0 hahead
  have hempty : ¬ ss.isEmpty = true := fun hempty => hne (List.isEmpty_iff.1 hempty)
  rw [parse, lex, htokens, Res.ok_bind, parseTokens, hrun]
  exact if_neg hempty

/-! ## What is parsed -/

namespace Parser

section
variable {tokens : List Token} {frames : ℕ} {α : Type} {Q : α → Prop}

/-- Items between commas: there is one, and all are returned by the item. -/
theorem commaSeparated_returns {item : Act ℕ α} (hitem : Returns item Q) (fuel : ℕ) :
    Returns (commaSeparated tokens item fuel) fun items => items ≠ [] ∧ ∀ a ∈ items, Q a := by
  induction fuel with
  | zero => exact returns_lift fun a ha => (nomatch ha)
  | succ fuel ih =>
    refine returns_bind hitem fun a ha => returns_then fun comma => ?_
    refine returns_ite (returns_bind ih fun rest hrest => returns_pure ?_) (returns_pure ?_)
    · exact ⟨List.cons_ne_nil _ _, List.forall_mem_cons.2 ⟨ha, hrest.2⟩⟩
    · exact ⟨List.cons_ne_nil _ _, List.forall_mem_singleton.2 ha⟩

/-- The word that is read is the next token. -/
theorem word_run {offset offset' : ℕ} {w : String} (h : (word tokens).run offset = (.ok w, offset')) :
    ∃ token, tokens[offset]? = some token ∧ token.kind = .word w := by
  obtain ⟨token, offset₁, hadvance, h⟩ := Act.run_bind_eq_ok.1 h
  obtain ⟨token', offset₂, hpeek, hadvance⟩ := Act.run_bind_eq_ok.1 hadvance
  obtain ⟨hget, -⟩ := Prod.mk.inj hpeek
  obtain ⟨stop, offset₃, -, hadvance⟩ := Act.run_bind_eq_ok.1 hadvance
  have htoken : token' = token := by
    cases stop with
    | true =>
      cases hadvance
      rfl
    | false =>
      obtain ⟨-, offset₄, -, hadvance⟩ := Act.run_bind_eq_ok.1 hadvance
      cases hadvance
      rfl
  subst htoken
  refine ⟨token', Res.get_eq_ok.1 hget, ?_⟩
  cases hkind : token'.kind with
  | word w' =>
    rw [hkind] at h
    cases h
    rfl
  | _ =>
    rw [hkind] at h
    cases h

section Named
variable (h : ∀ token ∈ tokens, token.kind.Named)
include h

theorem identifiersUntil_named {stop : Act ℕ Bool} (fuel : ℕ) :
    Returns (identifiersUntil tokens stop fuel) fun names => names ≠ [] ∧ ∀ name ∈ names, IsName name := by
  induction fuel with
  | zero => exact returns_lift fun a ha => (nomatch ha)
  | succ fuel ih =>
    refine returns_bind (word_named h) fun name hname => returns_then fun stopped => ?_
    refine returns_ite (returns_pure ?_) (returns_then fun _ => returns_bind ih fun names hnames => returns_pure ?_)
    · exact ⟨List.cons_ne_nil _ _, List.forall_mem_singleton.2 hname⟩
    · exact ⟨List.cons_ne_nil _ _, List.forall_mem_cons.2 ⟨hname, hnames.2⟩⟩

/-! ### Expressions -/

omit h in
theorem operatorLoop_named {w : String} {op : BinaryOp} {operand : Act ℕ Expr} (hoperand : Returns operand Expr.Named)
    (fuel : ℕ) {e : Expr} (he : e.Named) : Returns (operatorLoop tokens w op operand fuel e) Expr.Named := by
  induction fuel generalizing e with
  | zero => exact returns_lift fun a ha => (nomatch ha)
  | succ fuel ih =>
    refine returns_then fun found => returns_ite ?_ (returns_pure he)
    exact returns_bind hoperand fun right hright => ih ⟨he, hright⟩

omit h in
theorem or_named {primary : Act ℕ Expr} (hprimary : Returns primary Expr.Named) :
    Returns (or tokens primary) Expr.Named := by
  have hcomparison : Returns (comparison tokens primary) Expr.Named := by
    refine returns_bind hprimary fun left hleft => returns_then fun token => ?_
    cases comparisonOp token.kind with
    | none => exact returns_pure hleft
    | some op => exact returns_then fun _ => returns_bind hprimary fun right hright => returns_pure ⟨hleft, hright⟩
  have hand : Returns (and tokens primary) Expr.Named :=
    returns_bind hcomparison fun e he => operatorLoop_named hcomparison _ he
  exact returns_bind hand fun e he => operatorLoop_named hand _ he

/-- A column that is read is no word for a value. -/
theorem column_named {offset offset' : ℕ} {token : Token} {w : String} {e : Expr} (htoken : tokens[offset]? = some token)
    (hkind : token.kind = .word w) (hw : ¬ (w = "NULL" ∨ w = "TRUE" ∨ w = "FALSE"))
    (hrun : (do return Expr.column (← identifier tokens) : Act ℕ Expr).run offset = (.ok e, offset')) : e.Named := by
  obtain ⟨name, offset₁, hword, hrun⟩ := Act.run_bind_eq_ok.1 hrun
  cases hrun
  obtain ⟨token', htoken', hkind'⟩ := word_run hword
  obtain rfl : token = token' := Option.some.inj (htoken.symm.trans htoken')
  obtain rfl : w = name := TokenKind.word.inj (hkind.symm.trans hkind')
  have hname : IsName w := h token (List.mem_of_getElem? htoken) w hkind
  exact ⟨hname, by tauto⟩

/-- **Expressions** have identifiers as columns. -/
theorem primary_named (depth : ℕ) : Returns (primary tokens depth) Expr.Named := by
  induction depth with
  | zero => exact returns_lift fun a ha => (nomatch ha)
  | succ depth ih =>
    refine returns_then fun found => returns_ite ?_ ?_
    · exact returns_bind (or_named ih) fun e he => returns_then fun _ => returns_pure he
    · intro offset e offset' hrun
      obtain ⟨token, offset₁, hpeek, hrun⟩ := Act.run_bind_eq_ok.1 hrun
      obtain ⟨hget, rfl⟩ := Prod.mk.inj hpeek
      have hliteral : Returns (do return Expr.literal (← literal tokens)) Expr.Named :=
        returns_then fun v => returns_pure trivial
      cases hkind : token.kind with
      | integer value =>
        rw [hkind] at hrun
        exact hliteral _ _ _ hrun
      | string value =>
        rw [hkind] at hrun
        exact hliteral _ _ _ hrun
      | word w =>
        rw [hkind] at hrun
        simp only at hrun
        split_ifs at hrun with hw
        · exact hliteral _ _ _ hrun
        · exact column_named h (Res.get_eq_ok.1 hget) hkind hw hrun
      | _ =>
        rw [hkind] at hrun
        obtain ⟨_, _, _, hrun⟩ := Act.run_bind_eq_ok.1 hrun
        cases hrun

theorem filter_named : Returns (Parser.filter tokens frames) fun filter => ∀ e ∈ filter, e.Named := by
  refine returns_then fun found => returns_ite ?_ (returns_pure fun e he => (nomatch he))
  refine returns_bind (or_named (primary_named h frames)) fun e he => returns_pure fun e' he' => ?_
  cases he'
  exact he

/-! ### Statements -/

omit h in
theorem limit_named : Returns (limit tokens) fun limit => ∀ n ∈ limit, n < 2 ^ 63 := by
  refine returns_then fun found => returns_ite (returns_then fun token => ?_) (returns_pure fun n hn => (nomatch hn))
  cases token.kind with
  | integer value =>
    refine returns_ite (returns_pure fun n hn => ?_) (returns_lift fun a ha => (nomatch ha))
    have hlt := value.2.2
    cases hn
    omega
  | _ => exact returns_lift fun a ha => (nomatch ha)

theorem orderBy_named : Returns (Parser.orderBy tokens) fun orderBy => ∀ order ∈ orderBy, IsName order.1 := by
  refine returns_then fun found => returns_ite (returns_then fun _ => ?_) (returns_pure fun order ho => (nomatch ho))
  refine returns_bind (word_named h) fun column hcolumn => returns_then fun descending => ?_
  have horder : ∀ ascending : Bool, ∀ order ∈ some (column, ascending), IsName (Prod.fst order) := by
    intro ascending order horder
    cases horder
    exact hcolumn
  exact returns_ite (returns_pure (horder false)) (returns_then fun _ => returns_pure (horder true))

theorem selectAfterKeyword_printable : Returns (selectAfterKeyword tokens frames) Select.Printable := by
  have hprojection : Returns (projection tokens) Projection.Named := by
    refine returns_then fun star => returns_ite (returns_pure trivial) ?_
    exact returns_bind (identifiersUntil_named h _) fun names hnames => returns_pure hnames
  refine returns_bind hprojection fun projection hprojection => returns_then fun _ => ?_
  refine returns_bind (word_named h) fun table htable => returns_bind (filter_named h) fun filter hfilter => ?_
  refine returns_bind (orderBy_named h) fun orderBy horder => returns_bind limit_named fun limit hlimit => ?_
  exact returns_pure ⟨hprojection, htable, hfilter, horder, hlimit⟩

theorem createTable_printable : Returns (createTable tokens) Statement.Printable := by
  refine returns_bind (word_named h) fun table htable => returns_then fun _ => ?_
  refine returns_bind (commaSeparated_returns (columnDef_named h) _) fun columns hcolumns => ?_
  exact returns_then fun _ => returns_pure ⟨htable, hcolumns⟩

theorem insert_printable : Returns (insert tokens) Statement.Printable := by
  have hliteral : Returns (literal tokens) fun _ => True := fun _ _ _ _ => trivial
  refine returns_bind (word_named h) fun table htable => returns_then fun _ => ?_
  refine returns_bind (identifiersUntil_named h _) fun columns hcolumns => returns_then fun _ => returns_then fun _ => ?_
  refine returns_bind (commaSeparated_returns hliteral _) fun values hvalues => returns_then fun _ => ?_
  exact returns_pure ⟨htable, hcolumns, hvalues.1⟩

theorem update_printable : Returns (update tokens frames) Statement.Printable := by
  have hassignment : Returns (assignment tokens) fun assignment => IsName assignment.1 :=
    returns_bind (word_named h) fun column hcolumn => returns_then fun _ => returns_then fun v => returns_pure hcolumn
  refine returns_bind (word_named h) fun table htable => returns_then fun _ => ?_
  refine returns_bind (commaSeparated_returns hassignment _) fun assignments hassignments => ?_
  exact returns_bind (filter_named h) fun filter hfilter => returns_pure ⟨htable, hassignments, hfilter⟩

/-- **Statements** that are parsed can be written. -/
theorem statement_printable : Returns (statement tokens frames) Statement.Printable := by
  have hselect : Returns (selectAfterKeyword tokens frames) Select.Printable := selectAfterKeyword_printable h
  refine returns_then fun create => returns_ite (returns_then fun _ => createTable_printable h) ?_
  refine returns_then fun insert => returns_ite (returns_then fun _ => insert_printable h) ?_
  refine returns_then fun select => returns_ite (returns_bind hselect fun query hquery => returns_pure hquery) ?_
  refine returns_then fun update => returns_ite (update_printable h) ?_
  refine returns_then fun delete => returns_ite (returns_then fun _ => ?_) ?_
  · refine returns_bind (word_named h) fun table htable => ?_
    exact returns_bind (filter_named h) fun filter hfilter => returns_pure ⟨htable, hfilter⟩
  refine returns_then fun begin => returns_ite (returns_pure trivial) ?_
  refine returns_then fun commit => returns_ite (returns_pure trivial) ?_
  refine returns_then fun rollback => returns_ite (returns_pure trivial) ?_
  refine returns_then fun explain => returns_ite (returns_then fun _ => ?_) ?_
  · exact returns_bind hselect fun query hquery => returns_pure hquery
  · exact returns_then fun token => returns_lift fun a ha => (nomatch ha)

theorem statements_printable (fuel : ℕ) :
    Returns (statements tokens frames fuel) fun ss => ∀ s ∈ ss, s.Printable := by
  induction fuel with
  | zero => exact returns_lift fun a ha => (nomatch ha)
  | succ fuel ih =>
    refine returns_then fun atEnd => returns_ite (returns_pure (by simp)) ?_
    refine returns_then fun semicolon => returns_ite ih ?_
    refine returns_bind (statement_printable h) fun first hfirst => returns_then fun semicolon => ?_
    have hrest : Returns (statements tokens frames fuel >>= fun rest => pure (first :: rest))
        fun ss => ∀ s ∈ ss, s.Printable :=
      returns_bind ih fun rest hrest => returns_pure (List.forall_mem_cons.2 ⟨hfirst, hrest⟩)
    refine returns_ite hrest (returns_then fun atEnd => returns_ite hrest ?_)
    exact returns_then fun token => returns_lift fun a ha => (nomatch ha)

end Named

end

end Parser

/-- **Every script that is accepted can be written, and is read back**: the statements that `parse` returns
    are those that can be written, and writing them loses nothing. -/
theorem parse_script : (∀ ss : List Statement, ss ≠ [] → (∀ s ∈ ss, s.Printable) → parse (script ss) = .ok ss) ∧
    ∀ source ss, parse source = .ok ss → ss ≠ [] ∧ (∀ s ∈ ss, s.Printable) ∧ parse (script ss) = .ok ss := by
  refine ⟨fun ss => parse_of_printable, fun source ss h => ?_⟩
  have hparse := h
  obtain ⟨tokens, htokens, h⟩ := Res.bind_eq_ok.1 h
  obtain ⟨parsed, hparsed, h⟩ := Res.bind_eq_ok.1 h
  split_ifs at h with hempty
  · cases h
  · obtain rfl : parsed = ss := Except.ok.inj h
    have hne : parsed ≠ [] := fun hnil => hempty (List.isEmpty_iff.2 hnil)
    have hprintable : ∀ s ∈ parsed, s.Printable :=
      Parser.statements_printable (lexFrom_named htokens) _ 0 parsed _ (Act.run_eq_of_fst hparsed)
    exact ⟨hne, hprintable, parse_of_printable hne hprintable⟩

/-- `UPDATE` and `EXPLAIN`, with names that are words of the language. -/
theorem parse_script_two :
    parse (script [.update "SET" [("WHERE", .text "it's; x")] (some (.binary .or (.column "A") (.literal .null))),
        .explain ⟨"FROM", .columns ["FROM"], none, some ("DESC", false), some 7⟩]) =
      .ok [.update "SET" [("WHERE", .text "it's; x")] (some (.binary .or (.column "A") (.literal .null))),
        .explain ⟨"FROM", .columns ["FROM"], none, some ("DESC", false), some 7⟩] := by
  have hname : ∀ w ∈ ["SET", "WHERE", "A", "FROM", "DESC"], IsName w := by
    simp only [List.forall_mem_cons]
    exact ⟨isName_keyword (by decide +kernel), isName_keyword (by decide +kernel), isName_keyword (by decide +kernel),
      isName_keyword (by decide +kernel), isName_keyword (by decide +kernel), fun _ h => absurd h List.not_mem_nil⟩
  refine parse_script.1 _ (List.cons_ne_nil _ _) (List.forall_mem_cons.2 ⟨⟨hname _ (by simp), ⟨by simp, ?_⟩, ?_⟩,
    List.forall_mem_singleton.2 ⟨⟨by simp, ?_⟩, hname _ (by simp), ?_, ?_, ?_⟩⟩)
  · exact List.forall_mem_singleton.2 (hname _ (by simp))
  · rintro e ⟨⟩
    exact ⟨⟨hname _ (by simp), by decide⟩, trivial⟩
  · exact List.forall_mem_singleton.2 (hname _ (by simp))
  · exact fun e he => nomatch he
  · rintro order ⟨⟩
    exact hname _ (by simp)
  · rintro n ⟨⟩
    decide

end NutDb.Sql
