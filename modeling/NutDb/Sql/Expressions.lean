/-
  `WHERE` expressions, from their texts.

  A text is written token by token, with a space before each token.  An expression
  is written with parentheses around the operands that are operators themselves
  (`Expr.kinds`), or as a chain of comparisons with `AND` and `OR` between them and
  no parentheses (`chainKinds`).  The functions of the parser read, each at its
  level, what was written, up to a token that does not go on at that level
  (`ReadsUpTo`); so a statement has the expression that was written behind its
  `WHERE` (`where_parses`).
-/
import NutDb.Sql.RoundTrip

namespace NutDb.Sql

open Lib

/-! ## Texts of tokens -/

/-- The text of a token. -/
def TokenKind.written : TokenKind → String
  | .word w => w
  | .integer value => value.print
  | .string value => quoted value
  | .comma => ","
  | .leftParen => "("
  | .rightParen => ")"
  | .star => "*"
  | .semicolon => ";"
  | .eq => "="
  | .ne => "!="
  | .lt => "<"
  | .le => "<="
  | .gt => ">"
  | .ge => ">="
  | .done => ""

/-- Tokens, with a space before each. -/
def spaced : List TokenKind → String
  | [] => ""
  | kind :: kinds => " " ++ (kind.written ++ spaced kinds)

/-- A token that can be written. -/
def TokenKind.Writable (kind : TokenKind) : Prop := kind ≠ .done ∧ kind.Named

theorem writable_word {w : String} (h : IsName w) : (TokenKind.word w).Writable := by
  refine ⟨fun h => (nomatch h), fun w' hw => ?_⟩
  cases hw
  exact h

theorem delimited_spaced (kinds : List TokenKind) : Delimited (spaced kinds) := by
  cases kinds with
  | nil => exact delimited_empty
  | cons kind kinds => exact delimited_space _

/-- A token of two bytes. -/
theorem lexes_double {s t : String} {byte : UInt8} {kind : TokenKind} {kinds : List TokenKind}
    (hs : utf8 s = [byte, 0x3D]) (hspace : isAsciiWhitespace byte = false) (hsingle : SINGLE.lookup byte = none)
    (hkind : WITH_EQ.lookup byte = some kind) (h : Lexes t kinds) : Lexes (s ++ t) (kind :: kinds) := by
  refine lexes_cons hs hspace (fun pos => ?_) h
  simp only [lexToken, punctuation, hsingle, List.cons_append, List.nil_append, List.head?_cons, if_true, hkind]
  rfl

/-- `<` and `>`, before something that is not `=`. -/
theorem lexes_angle {s t : String} {byte : UInt8} {kind : TokenKind} {kinds : List TokenKind}
    (hs : utf8 s = [byte]) (hspace : isAsciiWhitespace byte = false) (hsingle : SINGLE.lookup byte = none)
    (hkind : ANGLE.lookup byte = some kind) (ht : Delimited t) (h : Lexes t kinds) : Lexes (s ++ t) (kind :: kinds) := by
  have hhead : ¬ (utf8 t).head? = some 0x3D := by
    intro heq
    obtain h | h | h := ht _ heq <;> exact absurd h (by decide)
  refine lexes_cons hs hspace (fun pos => ?_) h
  simp only [lexToken, punctuation, hsingle, List.nil_append, if_neg hhead, hkind]
  rfl

theorem lexesAs_written {kind : TokenKind} (h : kind.Writable) : LexesAs kind.written kind := by
  intro t kinds ht hlex
  cases kind with
  | word w => exact lexes_word (h.2 w rfl) t kinds ht hlex
  | integer value => exact lexes_integer value t kinds ht hlex
  | string value => exact lexes_quoted value t kinds ht hlex
  | comma => exact lexes_comma hlex
  | leftParen => exact lexes_leftParen hlex
  | rightParen => exact lexes_rightParen hlex
  | star => exact lexes_star hlex
  | semicolon => exact lexes_single rfl (by decide) rfl hlex
  | eq => exact lexes_eq hlex
  | ne => exact lexes_double rfl (by decide) rfl rfl hlex
  | lt => exact lexes_angle rfl (by decide) rfl rfl ht hlex
  | le => exact lexes_double rfl (by decide) rfl rfl hlex
  | gt => exact lexes_angle rfl (by decide) rfl rfl ht hlex
  | ge => exact lexes_double rfl (by decide) rfl rfl hlex
  | done => exact absurd rfl h.1

/-- **Tokens are read back from their text.** -/
theorem lexes_spaced {kinds : List TokenKind} (h : ∀ kind ∈ kinds, kind.Writable) : Lexes (spaced kinds) kinds := by
  induction kinds with
  | nil => exact lexes_empty
  | cons kind kinds ih =>
    obtain ⟨hkind, hkinds⟩ := List.forall_mem_cons.1 h
    exact lexes_space (lexesAs_written hkind _ _ (delimited_spaced kinds) (ih hkinds))

/-! ## Written expressions -/

/-- The token of an operator. -/
def BinaryOp.kind : BinaryOp → TokenKind
  | .eq => .eq
  | .ne => .ne
  | .lt => .lt
  | .le => .le
  | .gt => .gt
  | .ge => .ge
  | .and => .word "AND"
  | .or => .word "OR"

/-- An operand, in parentheses if it is an operator itself. -/
def Expr.grouped : Expr → List TokenKind → List TokenKind
  | .binary _ _ _, kinds => .leftParen :: (kinds ++ [.rightParen])
  | _, kinds => kinds

/-- The tokens of an expression, with parentheses around operands that are operators. -/
def Expr.kinds : Expr → List TokenKind
  | .column name => [.word name]
  | .literal value => [value.token]
  | .binary op left right => left.grouped left.kinds ++ op.kind :: right.grouped right.kinds

/-- The tokens of an operand. -/
def Expr.operand (e : Expr) : List TokenKind := e.grouped e.kinds

/-- The columns are identifiers, and not the words for values. -/
def Expr.Named : Expr → Prop
  | .column name => IsName name ∧ name ≠ "NULL" ∧ name ≠ "TRUE" ∧ name ≠ "FALSE"
  | .literal _ => True
  | .binary _ left right => left.Named ∧ right.Named

/-- Not `AND` or `OR` at the root. -/
def Expr.isComparison : Expr → Bool
  | .binary .and _ _ | .binary .or _ _ => false
  | _ => true

/-- What stands between the comparisons of a chain. -/
inductive Joiner where
  | and
  | or
  deriving DecidableEq, Repr

/-- The operator of a joiner. -/
def Joiner.op : Joiner → BinaryOp
  | .and => .and
  | .or => .or

/-- A chain of comparisons, without parentheses around it or in it. -/
def chainKinds : Expr → List (Joiner × Expr) → List TokenKind
  | first, [] => first.kinds
  | first, (joiner, next) :: rest => first.kinds ++ joiner.op.kind :: chainKinds next rest

/-- The groups of a chain between its `OR`s, the first group apart; each has its first comparison apart. -/
def groups : Expr → List (Joiner × Expr) → (Expr × List Expr) × List (Expr × List Expr)
  | first, [] => ((first, []), [])
  | first, (.and, next) :: rest =>
    let (group, more) := groups next rest
    ((first, group.1 :: group.2), more)
  | first, (.or, next) :: rest =>
    let (group, more) := groups next rest
    ((first, []), group :: more)

/-- `e₀ AND e₁ AND e₂ …`, from the left. -/
def ands (group : Expr × List Expr) : Expr := group.2.foldl (.binary .and) group.1

/-- The left-associated `OR` of the left-associated `AND`s of a chain. -/
def chainTree (first : Expr) (rest : List (Joiner × Expr)) : Expr :=
  ((groups first rest).2.map ands).foldl (.binary .or) (ands (groups first rest).1)

/-! ## Levels of the parser -/

namespace Parser

/-- The tokens are read as `a`, before every token with `P`. -/
def ReadsUpTo (tokens : List Token) {α : Type} (x : Act ℕ α) (kinds : List TokenKind) (a : α)
    (P : TokenKind → Prop) : Prop :=
  ∀ kind rest, P kind → Reads tokens x (kinds ++ kind :: rest) a (kind :: rest)

/-- No comparison goes on with the token. -/
def NoComparison (kind : TokenKind) : Prop := comparisonOp kind = none

/-- No comparison and no `AND` goes on with the token. -/
def NoAnd (kind : TokenKind) : Prop := NoComparison kind ∧ kind ≠ .word "AND"

/-- No expression goes on with the token. -/
def Stops (kind : TokenKind) : Prop := NoAnd kind ∧ kind ≠ .word "OR"

section Levels
variable {tokens : List Token} {primary : Act ℕ Expr} {ls rs ks : List TokenKind} {e l r : Expr}

theorem readsUpTo_comparison (h : ReadsUpTo tokens primary ks e fun _ => True) :
    ReadsUpTo tokens (comparison tokens primary) ks e NoComparison := by
  refine fun kind rest hkind => (h kind rest trivial).bind (reads_peek fun token htoken => ?_)
  rw [htoken, show comparisonOp kind = none from hkind]
  exact reads_pure _

theorem readsUpTo_binary {op : BinaryOp} (hop : comparisonOp op.kind = some op)
    (hl : ReadsUpTo tokens primary ls l fun _ => True) (hr : ReadsUpTo tokens primary rs r fun _ => True) :
    ReadsUpTo tokens (comparison tokens primary) (ls ++ op.kind :: rs) (.binary op l r) NoComparison := by
  intro kind rest _
  rw [List.append_assoc, List.cons_append]
  refine (hl op.kind _ trivial).bind (reads_peek fun token htoken => ?_)
  rw [htoken, hop]
  exact reads_skip.bind ((hr kind rest trivial).bind (reads_pure _))

/-- The tokens of operands, each behind the same word. -/
def behind (w : String) (items : List (List TokenKind × Expr)) : List TokenKind :=
  items.flatMap fun item => .word w :: item.1

theorem behind_cons (w : String) (item : List TokenKind × Expr) (items : List (List TokenKind × Expr)) :
    behind w (item :: items) = .word w :: (item.1 ++ behind w items) := by
  rw [behind, List.flatMap_cons, List.cons_append]
  rfl

theorem behind_singleton (w : String) (item : List TokenKind × Expr) : behind w [item] = .word w :: item.1 := by
  rw [behind_cons, behind, List.flatMap_nil, List.append_nil]

theorem length_behind (w : String) (items : List (List TokenKind × Expr)) : items.length ≤ (behind w items).length := by
  induction items with
  | nil => exact le_rfl
  | cons item items ih =>
    rw [behind_cons, List.length_cons, List.length_cons, List.length_append]
    omega

/-- **The loops of `and` and `or`** read operands from the left. -/
theorem reads_operators {w : String} {op : BinaryOp} {operand : Act ℕ Expr} {P : TokenKind → Prop}
    {items : List (List TokenKind × Expr)} (hitems : ∀ item ∈ items, ReadsUpTo tokens operand item.1 item.2 P)
    (hw : P (.word w)) {kind : TokenKind} (hkind : P kind) (hne : kind ≠ .word w) {fuel : ℕ}
    (hfuel : items.length < fuel) (rest : List TokenKind) (e : Expr) :
    Reads tokens (operatorLoop tokens w op operand fuel e) (behind w items ++ kind :: rest)
      ((items.map Prod.snd).foldl (.binary op) e) (kind :: rest) := by
  induction items generalizing fuel e with
  | nil => exact reads_operatorLoop hfuel hne
  | cons item items ih =>
    obtain ⟨hitem, hitems⟩ := List.forall_mem_cons.1 hitems
    obtain ⟨fuel, rfl⟩ : ∃ n, fuel = n + 1 := Nat.exists_eq_succ_of_ne_zero (by rintro rfl; cases hfuel)
    have hmore := ih hitems (Nat.lt_of_succ_lt_succ hfuel) (.binary op e item.2)
    have hnext : ∃ next more, behind w items ++ kind :: rest = next :: more ∧ P next := by
      cases items with
      | nil => exact ⟨kind, rest, rfl, hkind⟩
      | cons item' items => exact ⟨.word w, _, rfl, hw⟩
    obtain ⟨next, more, heq, hP⟩ := hnext
    rw [heq] at hmore
    have hkinds : behind w (item :: items) ++ kind :: rest = .word w :: (item.1 ++ next :: more) := by
      rw [behind_cons, List.cons_append, List.append_assoc, heq]
    rw [hkinds]
    exact (reads_consumeWord w).bind ((hitem next more hP).bind hmore)

/-- An operand, and further ones behind the same word. -/
theorem readsUpTo_operators {w : String} {op : BinaryOp} {operand : Act ℕ Expr} {P : TokenKind → Prop}
    (hfirst : ReadsUpTo tokens operand ks e P) {items : List (List TokenKind × Expr)}
    (hitems : ∀ item ∈ items, ReadsUpTo tokens operand item.1 item.2 P) (hw : P (.word w)) :
    ReadsUpTo tokens (operand >>= fun e => operatorLoop tokens w op operand tokens.length e)
      (ks ++ behind w items) ((items.map Prod.snd).foldl (.binary op) e) fun kind => P kind ∧ kind ≠ .word w := by
  intro kind rest ⟨hkind, hne⟩ offset hahead
  have hfuel : items.length < tokens.length := by
    have hlen := hahead.length_le
    have hitems := length_behind w items
    simp only [List.length_append, List.length_cons] at hlen
    omega
  have hmore : Reads tokens (operatorLoop tokens w op operand tokens.length e) (behind w items ++ kind :: rest)
      ((items.map Prod.snd).foldl (.binary op) e) (kind :: rest) :=
    reads_operators hitems hw hkind hne hfuel rest e
  have hnext : ∃ next more, behind w items ++ kind :: rest = next :: more ∧ P next := by
    cases items with
    | nil => exact ⟨kind, rest, rfl, hkind⟩
    | cons item items => exact ⟨.word w, _, rfl, hw⟩
  obtain ⟨next, more, heq, hP⟩ := hnext
  rw [heq] at hmore
  rw [List.append_assoc, heq] at hahead
  exact (hfirst next more hP).bind hmore offset hahead

theorem readsUpTo_and (hfirst : ReadsUpTo tokens (comparison tokens primary) ks e NoComparison)
    {items : List (List TokenKind × Expr)}
    (hitems : ∀ item ∈ items, ReadsUpTo tokens (comparison tokens primary) item.1 item.2 NoComparison) :
    ReadsUpTo tokens (and tokens primary) (ks ++ behind "AND" items)
      ((items.map Prod.snd).foldl (.binary .and) e) NoAnd :=
  readsUpTo_operators hfirst hitems rfl

theorem readsUpTo_or (hfirst : ReadsUpTo tokens (and tokens primary) ks e NoAnd)
    {items : List (List TokenKind × Expr)}
    (hitems : ∀ item ∈ items, ReadsUpTo tokens (and tokens primary) item.1 item.2 NoAnd) :
    ReadsUpTo tokens (or tokens primary) (ks ++ behind "OR" items)
      ((items.map Prod.snd).foldl (.binary .or) e) Stops :=
  readsUpTo_operators hfirst hitems ⟨rfl, by decide⟩

/-- An operand of `AND` or a comparison alone. -/
theorem readsUpTo_and_single (h : ReadsUpTo tokens (comparison tokens primary) ks e NoComparison) :
    ReadsUpTo tokens (and tokens primary) ks e NoAnd := by
  have hand : ReadsUpTo tokens (and tokens primary) (ks ++ behind "AND" []) e NoAnd :=
    readsUpTo_and h fun item hitem => absurd hitem List.not_mem_nil
  rwa [show ks ++ behind "AND" [] = ks from List.append_nil ks] at hand

theorem readsUpTo_or_single (h : ReadsUpTo tokens (and tokens primary) ks e NoAnd) :
    ReadsUpTo tokens (or tokens primary) ks e Stops := by
  have hor : ReadsUpTo tokens (or tokens primary) (ks ++ behind "OR" []) e Stops :=
    readsUpTo_or h fun item hitem => absurd hitem List.not_mem_nil
  rwa [show ks ++ behind "OR" [] = ks from List.append_nil ks] at hor

theorem readsUpTo_parens {depth : ℕ} (h : ReadsUpTo tokens (or tokens (Parser.primary tokens depth)) ks e Stops) :
    ReadsUpTo tokens (Parser.primary tokens (depth + 1)) (.leftParen :: (ks ++ [.rightParen])) e fun _ => True := by
  intro kind rest _
  have hstop : Stops .rightParen := ⟨⟨rfl, by decide⟩, by decide⟩
  rw [List.cons_append, List.append_assoc]
  exact reads_consumeSimple.bind ((h .rightParen (kind :: rest) hstop).bind
    ((reads_expectSimple _).bind (reads_pure _)))

end Levels

/-! ## Trees -/

section Trees
variable {tokens : List Token}

/-- An operator, with operands that are read. -/
theorem readsUpTo_tree {primary : Act ℕ Expr} (op : BinaryOp) {l r : Expr}
    (hl : ReadsUpTo tokens primary l.operand l fun _ => True)
    (hr : ReadsUpTo tokens primary r.operand r fun _ => True) :
    ReadsUpTo tokens (or tokens primary) (Expr.binary op l r).kinds (.binary op l r) Stops := by
  have hcomparison : comparisonOp op.kind = some op →
      ReadsUpTo tokens (or tokens primary) (Expr.binary op l r).kinds (.binary op l r) Stops := fun hop =>
    readsUpTo_or_single (readsUpTo_and_single (readsUpTo_binary hop hl hr))
  have hleft := readsUpTo_comparison hl
  have hright := readsUpTo_comparison hr
  cases op with
  | and =>
    have hand : ReadsUpTo tokens (and tokens primary) (l.operand ++ behind "AND" [(r.operand, r)])
        (.binary .and l r) NoAnd :=
      readsUpTo_and hleft (List.forall_mem_singleton.2 hright)
    rw [behind_singleton] at hand
    exact readsUpTo_or_single hand
  | or =>
    have hor : ReadsUpTo tokens (or tokens primary) (l.operand ++ behind "OR" [(r.operand, r)])
        (.binary .or l r) Stops :=
      readsUpTo_or (readsUpTo_and_single hleft) (List.forall_mem_singleton.2 (readsUpTo_and_single hright))
    rw [behind_singleton] at hor
    exact hor
  | _ => exact hcomparison rfl

/-- **Operands** are read as they were written, with enough depth for their parentheses. -/
theorem readsUpTo_operand {e : Expr} (h : e.Named) {depth : ℕ} (hdepth : e.operand.length ≤ depth) :
    ReadsUpTo tokens (primary tokens depth) e.operand e fun _ => True := by
  induction e generalizing depth with
  | column name =>
    obtain ⟨depth, rfl⟩ : ∃ n, depth = n + 1 := Nat.exists_eq_succ_of_ne_zero (by rintro rfl; cases hdepth)
    exact fun kind rest _ => reads_primary_column h.2
  | literal value =>
    obtain ⟨depth, rfl⟩ : ∃ n, depth = n + 1 := Nat.exists_eq_succ_of_ne_zero (by rintro rfl; cases hdepth)
    exact fun kind rest _ => reads_primary_literal
  | binary op l r ihl ihr =>
    obtain ⟨depth, rfl⟩ : ∃ n, depth = n + 1 := Nat.exists_eq_succ_of_ne_zero (by rintro rfl; cases hdepth)
    have hlen : l.operand.length + r.operand.length ≤ depth := by
      change (TokenKind.leftParen :: ((l.operand ++ op.kind :: r.operand) ++ [.rightParen])).length ≤ depth + 1 at hdepth
      simp only [List.length_cons, List.length_append] at hdepth
      omega
    exact readsUpTo_parens (readsUpTo_tree op (ihl h.1 (by omega)) (ihr h.2 (by omega)))

theorem length_kinds_binary (op : BinaryOp) (l r : Expr) :
    (Expr.binary op l r).kinds.length = l.operand.length + (r.operand.length + 1) := by
  change (l.operand ++ op.kind :: r.operand).length = _
  rw [List.length_append, List.length_cons]

/-- **Expressions** are read as they were written. -/
theorem readsUpTo_expr {e : Expr} (h : e.Named) {depth : ℕ} (hdepth : e.kinds.length ≤ depth) :
    ReadsUpTo tokens (or tokens (primary tokens depth)) e.kinds e Stops := by
  cases e with
  | column name =>
    exact readsUpTo_or_single (readsUpTo_and_single (readsUpTo_comparison (readsUpTo_operand h hdepth)))
  | literal value =>
    exact readsUpTo_or_single (readsUpTo_and_single (readsUpTo_comparison (readsUpTo_operand h hdepth)))
  | binary op l r =>
    rw [length_kinds_binary] at hdepth
    exact readsUpTo_tree op (readsUpTo_operand h.1 (by omega)) (readsUpTo_operand h.2 (by omega))

theorem readsUpTo_isComparison {e : Expr} (h : e.Named) (hcomparison : e.isComparison = true) {depth : ℕ}
    (hdepth : e.kinds.length ≤ depth) :
    ReadsUpTo tokens (comparison tokens (primary tokens depth)) e.kinds e NoComparison := by
  cases e with
  | column name => exact readsUpTo_comparison (readsUpTo_operand h hdepth)
  | literal value => exact readsUpTo_comparison (readsUpTo_operand h hdepth)
  | binary op l r =>
    have hop : comparisonOp op.kind = some op := by
      cases op <;> first | rfl | cases hcomparison
    rw [length_kinds_binary] at hdepth
    exact readsUpTo_binary hop (readsUpTo_operand h.1 (by omega)) (readsUpTo_operand h.2 (by omega))

/-! ## Chains -/

/-- The comparisons of a group, with their tokens. -/
def written (es : List Expr) : List (List TokenKind × Expr) := es.map fun e => (e.kinds, e)

/-- The tokens of a group of a chain. -/
def groupKinds (group : Expr × List Expr) : List TokenKind := group.1.kinds ++ behind "AND" (written group.2)

/-- A chain is its groups with `OR` between them. -/
theorem chainKinds_groups (first : Expr) (rest : List (Joiner × Expr)) :
    chainKinds first rest = groupKinds (groups first rest).1 ++
      behind "OR" ((groups first rest).2.map fun group => (groupKinds group, ands group)) := by
  induction rest generalizing first with
  | nil => simp [chainKinds, groups, groupKinds, written, behind]
  | cons joined rest ih =>
    obtain ⟨joiner, next⟩ := joined
    rw [chainKinds, ih]
    cases joiner with
    | and =>
      simp only [groups, groupKinds, written, List.map_cons, behind_cons, List.append_assoc, List.cons_append]
      rfl
    | or =>
      simp only [groups, groupKinds, written, List.map_cons, List.map_nil, behind_cons]
      simp only [behind, List.flatMap_nil, List.append_nil]
      rfl

/-- The groups of a chain have its comparisons. -/
theorem forall_groups {Q : Expr → Prop} {first : Expr} {rest : List (Joiner × Expr)}
    (h : ∀ e ∈ first :: rest.map Prod.snd, Q e) :
    ∀ group ∈ (groups first rest).1 :: (groups first rest).2, ∀ e ∈ group.1 :: group.2, Q e := by
  induction rest generalizing first with
  | nil => exact List.forall_mem_singleton.2 h
  | cons joined rest ih =>
    obtain ⟨joiner, next⟩ := joined
    obtain ⟨hfirst, hrest⟩ := List.forall_mem_cons.1 h
    obtain ⟨hgroup, hmore⟩ := List.forall_mem_cons.1 (ih hrest)
    cases joiner with
    | and => exact List.forall_mem_cons.2 ⟨List.forall_mem_cons.2 ⟨hfirst, hgroup⟩, hmore⟩
    | or =>
      exact List.forall_mem_cons.2 ⟨List.forall_mem_singleton.2 hfirst, List.forall_mem_cons.2 ⟨hgroup, hmore⟩⟩

theorem length_le_chainKinds (first : Expr) (rest : List (Joiner × Expr)) :
    ∀ e ∈ first :: rest.map Prod.snd, e.kinds.length ≤ (chainKinds first rest).length := by
  induction rest generalizing first with
  | nil => exact List.forall_mem_singleton.2 le_rfl
  | cons joined rest ih =>
    rw [chainKinds, List.length_append, List.length_cons]
    refine List.forall_mem_cons.2 ⟨Nat.le_add_right _ _, fun e he => ?_⟩
    have hle := ih joined.2 e he
    omega

/-- A group of comparisons that are read. -/
theorem readsUpTo_group {primary : Act ℕ Expr} {group : Expr × List Expr}
    (h : ∀ e ∈ group.1 :: group.2, ReadsUpTo tokens (comparison tokens primary) e.kinds e NoComparison) :
    ReadsUpTo tokens (and tokens primary) (groupKinds group) (ands group) NoAnd := by
  obtain ⟨hfirst, hrest⟩ := List.forall_mem_cons.1 h
  have hand : ReadsUpTo tokens (and tokens primary) (group.1.kinds ++ behind "AND" (written group.2))
      (((written group.2).map Prod.snd).foldl (.binary .and) group.1) NoAnd :=
    readsUpTo_and hfirst (List.forall_mem_map.2 hrest)
  have hmap : (written group.2).map Prod.snd = group.2 := by
    rw [written, List.map_map]
    exact List.map_id _
  rw [hmap] at hand
  exact hand

/-- **Chains** are read as the `OR` of the `AND`s of their comparisons. -/
theorem readsUpTo_chain {first : Expr} {rest : List (Joiner × Expr)} {depth : ℕ}
    (h : ∀ e ∈ first :: rest.map Prod.snd, e.Named ∧ e.isComparison = true)
    (hdepth : (chainKinds first rest).length ≤ depth) :
    ReadsUpTo tokens (or tokens (primary tokens depth)) (chainKinds first rest) (chainTree first rest) Stops := by
  have hreads : ∀ e ∈ first :: rest.map Prod.snd,
      ReadsUpTo tokens (comparison tokens (primary tokens depth)) e.kinds e NoComparison := fun e he =>
    readsUpTo_isComparison (h e he).1 (h e he).2 ((length_le_chainKinds first rest e he).trans hdepth)
  obtain ⟨hgroup, hmore⟩ := List.forall_mem_cons.1 (forall_groups hreads)
  have hgroups : ∀ item ∈ (groups first rest).2.map fun group => (groupKinds group, ands group),
      ReadsUpTo tokens (and tokens (primary tokens depth)) item.1 item.2 NoAnd :=
    List.forall_mem_map.2 fun group hg => readsUpTo_group (hmore group hg)
  have hor := readsUpTo_or (readsUpTo_group hgroup) hgroups
  rw [← chainKinds_groups, List.map_map] at hor
  exact hor

end Trees

/-! ## Filters -/

/-- The tokens are the filter `e`, whatever is asked for behind it. -/
def Filters (kinds : List TokenKind) (e : Expr) : Prop :=
  (∀ kind ∈ kinds, kind.Writable) ∧
    ∀ tokens : List Token, ReadsUpTo tokens (filter tokens tokens.length) (.word "WHERE" :: kinds) (some e) Stops

theorem reads_filter {tokens : List Token} {kinds : List TokenKind} {e : Expr}
    (h : kinds.length ≤ tokens.length →
      ReadsUpTo tokens (or tokens (primary tokens tokens.length)) kinds e Stops) :
    ReadsUpTo tokens (filter tokens tokens.length) (.word "WHERE" :: kinds) (some e) Stops := by
  intro kind rest hkind offset hahead
  have hlen : kinds.length ≤ tokens.length := by
    have hle := hahead.length_le
    simp only [List.cons_append, List.length_cons, List.length_append] at hle
    omega
  have hexpr : Reads tokens (expr tokens tokens.length) (kinds ++ kind :: rest) e (kind :: rest) := h hlen kind rest hkind
  have hfilter : Reads tokens (filter tokens tokens.length) (.word "WHERE" :: (kinds ++ kind :: rest)) (some e)
      (kind :: rest) :=
    (reads_consumeWord "WHERE").bind (hexpr.bind (reads_pure _))
  exact hfilter offset hahead

theorem writable_token (v : Value) : v.token.Writable := by
  cases v with
  | null => exact writable_word (isName_keyword (by decide +kernel))
  | integer value => exact ⟨fun h => (nomatch h), fun w h => (nomatch h)⟩
  | text value => exact ⟨fun h => (nomatch h), fun w h => (nomatch h)⟩
  | boolean value =>
    cases value with
    | false => exact writable_word (isName_keyword (by decide +kernel))
    | true => exact writable_word (isName_keyword (by decide +kernel))

theorem writable_symbol {kind : TokenKind} (h : kind ≠ .done) (hword : ∀ w, kind ≠ .word w) : kind.Writable :=
  ⟨h, fun w hw => absurd hw (hword w)⟩

theorem writable_op (op : BinaryOp) : op.kind.Writable := by
  cases op with
  | and => exact writable_word (isName_keyword (by decide +kernel))
  | or => exact writable_word (isName_keyword (by decide +kernel))
  | _ => exact writable_symbol (fun h => (nomatch h)) (fun w h => (nomatch h))

theorem writable_grouped {e : Expr} {kinds : List TokenKind} (h : ∀ kind ∈ kinds, kind.Writable) :
    ∀ kind ∈ e.grouped kinds, kind.Writable := by
  cases e with
  | column name => exact h
  | literal value => exact h
  | binary op l r =>
    refine List.forall_mem_cons.2 ⟨writable_symbol (by decide) (by simp), List.forall_mem_append.2 ⟨h, ?_⟩⟩
    exact List.forall_mem_singleton.2 (writable_symbol (by decide) (by simp))

theorem writable_kinds {e : Expr} (h : e.Named) : ∀ kind ∈ e.kinds, kind.Writable := by
  induction e with
  | column name => exact List.forall_mem_singleton.2 (writable_word h.1)
  | literal value => exact List.forall_mem_singleton.2 (writable_token value)
  | binary op l r ihl ihr =>
    refine List.forall_mem_append.2 ⟨writable_grouped (ihl h.1), List.forall_mem_cons.2 ⟨writable_op op, ?_⟩⟩
    exact writable_grouped (ihr h.2)

theorem filters_expr {e : Expr} (h : e.Named) : Filters e.kinds e :=
  ⟨writable_kinds h, fun _ => reads_filter fun hlen => readsUpTo_expr h hlen⟩

theorem writable_chainKinds {first : Expr} {rest : List (Joiner × Expr)}
    (h : ∀ e ∈ first :: rest.map Prod.snd, e.Named) : ∀ kind ∈ chainKinds first rest, kind.Writable := by
  induction rest generalizing first with
  | nil => exact writable_kinds (h first List.mem_cons_self)
  | cons joined rest ih =>
    obtain ⟨hfirst, hrest⟩ := List.forall_mem_cons.1 h
    exact List.forall_mem_append.2 ⟨writable_kinds hfirst, List.forall_mem_cons.2 ⟨writable_op _, ih hrest⟩⟩

theorem filters_chain {first : Expr} {rest : List (Joiner × Expr)}
    (h : ∀ e ∈ first :: rest.map Prod.snd, e.Named ∧ e.isComparison = true) :
    Filters (chainKinds first rest) (chainTree first rest) :=
  ⟨writable_chainKinds fun e he => (h e he).1, fun _ => reads_filter fun hlen => readsUpTo_chain h hlen⟩

end Parser

/-! ## Statements -/

/-- The tokens of a projection. -/
def Projection.kinds : Projection → List TokenKind
  | .all => [.star]
  | .columns names => (names.map TokenKind.word).intersperse .comma

/-- There are columns, and their names are names. -/
def Projection.Named : Projection → Prop
  | .all => True
  | .columns names => names ≠ [] ∧ ∀ name ∈ names, IsName name

/-- The tokens of an `ORDER BY`. -/
def orderKinds : Option (String × Bool) → List TokenKind
  | none => []
  | some (column, ascending) =>
    [.word "ORDER", .word "BY", .word column, .word (if ascending then "ASC" else "DESC")]

/-- The tokens of a `LIMIT`. -/
def limitKinds : Option I64 → List TokenKind
  | none => []
  | some value => [.word "LIMIT", .integer value]

/-- A `SELECT` with a filter. -/
def selectWhere (projection : Projection) (table : String) (filter : List TokenKind)
    (orderBy : Option (String × Bool)) (limit : Option I64) : String :=
  spaced (.word "SELECT" :: (projection.kinds ++ .word "FROM" :: .word table :: .word "WHERE" ::
    (filter ++ (orderKinds orderBy ++ limitKinds limit))))

/-- The tokens of an assignment. -/
def assignmentKinds (assignment : String × Value) : List TokenKind :=
  [.word assignment.1, .eq, assignment.2.token]

/-- An `UPDATE` with a filter. -/
def updateWhere (table : String) (assignments : List (String × Value)) (filter : List TokenKind) : String :=
  spaced (.word "UPDATE" :: .word table :: .word "SET" ::
    ([.comma].intercalate (assignments.map assignmentKinds) ++ .word "WHERE" :: filter))

/-- A `DELETE` with a filter. -/
def deleteWhere (table : String) (filter : List TokenKind) : String :=
  spaced (.word "DELETE" :: .word "FROM" :: .word table :: .word "WHERE" :: filter)

namespace Parser

section Statements
variable {tokens : List Token} {kinds : List TokenKind} {e : Expr}

theorem reads_projection {projection : Projection} (h : projection.Named) (rest : List TokenKind) :
    Reads tokens (Parser.projection tokens) (projection.kinds ++ .word "FROM" :: rest) projection
      (.word "FROM" :: rest) := by
  cases projection with
  | all => exact reads_consumeSimple.bind (reads_pure _)
  | columns names =>
    intro offset hahead
    have hlen : names.length ≤ tokens.length := by
      have hle := hahead.length_le
      simp only [Projection.kinds, List.length_append, List.length_intersperse, List.length_map, List.length_cons] at hle
      omega
    obtain ⟨name, names', rfl⟩ := List.exists_cons_of_ne_nil h.1
    have hstop : Reads tokens (checkWord tokens "FROM") (.word "FROM" :: rest) true (.word "FROM" :: rest) :=
      reads_checkWord (beq_self_eq_true _)
    have hnames : Reads tokens (identifierListUntilWord tokens "FROM") _ _ _ :=
      reads_identifiersUntil hstop (fun kinds => reads_checkWord rfl) h.1 hlen
    have hstar : ∃ more, Projection.kinds (.columns (name :: names')) ++ .word "FROM" :: rest = .word name :: more := by
      cases names' with
      | nil => exact ⟨_, rfl⟩
      | cons name' names' => exact ⟨_, rfl⟩
    obtain ⟨more, hmore⟩ := hstar
    have hread : Reads tokens (Parser.projection tokens) (.word name :: more) (.columns (name :: names'))
        (.word "FROM" :: rest) := by
      refine (reads_consumeSimple_other (by simp)).bind ?_
      rw [← hmore]
      exact hnames.bind (reads_pure _)
    rw [hmore] at hahead
    exact hread offset hahead

theorem reads_limit {limit : Option I64} (h : ∀ value ∈ limit, 0 ≤ value.val) :
    Reads tokens (Parser.limit tokens) (limitKinds limit ++ [.done]) (limit.map fun value => value.val.toNat)
      [.done] := by
  cases limit with
  | none => exact (reads_consumeWord_other (by simp)).bind (reads_pure _)
  | some value =>
    refine (reads_consumeWord "LIMIT").bind (reads_advance (by simp) fun token hkind => ?_)
    rw [hkind]
    simp only [if_pos (h value rfl)]
    exact reads_pure _

theorem reads_orderBy (orderBy : Option (String × Bool)) (limit : Option I64) :
    Reads tokens (Parser.orderBy tokens) (orderKinds orderBy ++ (limitKinds limit ++ [.done])) orderBy
      (limitKinds limit ++ [.done]) := by
  cases orderBy with
  | none =>
    cases limit with
    | none => exact (reads_consumeWord_other (by simp)).bind (reads_pure _)
    | some value => exact (reads_consumeWord_other (by simp)).bind (reads_pure _)
  | some order =>
    obtain ⟨column, ascending⟩ := order
    refine (reads_consumeWord "ORDER").bind ((reads_expectWord "BY").bind ((reads_word column).bind ?_))
    cases ascending with
    | true => exact (reads_consumeWord_other (by simp)).bind ((reads_consumeWord "ASC").bind (reads_pure _))
    | false => exact (reads_consumeWord "DESC").bind (reads_pure _)

/-- Nothing behind a filter goes on with it. -/
theorem stops_behind (orderBy : Option (String × Bool)) (limit : Option I64) :
    ∃ kind rest, orderKinds orderBy ++ (limitKinds limit ++ [.done]) = kind :: rest ∧ Stops kind := by
  have hstops : ∀ kind, kind = .word "ORDER" ∨ kind = .word "LIMIT" ∨ kind = .done → Stops kind := by
    rintro kind (rfl | rfl | rfl) <;> exact ⟨⟨rfl, by decide⟩, by decide⟩
  cases orderBy with
  | none =>
    cases limit with
    | none => exact ⟨_, _, rfl, hstops _ (by simp)⟩
    | some value => exact ⟨_, _, rfl, hstops _ (by simp)⟩
  | some order => exact ⟨_, _, rfl, hstops _ (by simp)⟩

theorem Filters.reads (h : Filters kinds e) (orderBy : Option (String × Bool)) (limit : Option I64) :
    Reads tokens (filter tokens tokens.length)
      (.word "WHERE" :: (kinds ++ (orderKinds orderBy ++ (limitKinds limit ++ [.done]))))
      (some e) (orderKinds orderBy ++ (limitKinds limit ++ [.done])) := by
  obtain ⟨kind, rest, heq, hstops⟩ := stops_behind orderBy limit
  rw [heq]
  exact h.2 tokens kind rest hstops

theorem Filters.reads_done (h : Filters kinds e) :
    Reads tokens (filter tokens tokens.length) (.word "WHERE" :: (kinds ++ [.done])) (some e) [.done] :=
  h.reads none none

/-- **A `SELECT` with a filter.** -/
theorem Filters.select (h : Filters kinds e) {projection : Projection} (hprojection : projection.Named) (table : String)
    (orderBy : Option (String × Bool)) {limit : Option I64} (hlimit : ∀ value ∈ limit, 0 ≤ value.val) :
    Reads tokens (selectAfterKeyword tokens tokens.length)
      (projection.kinds ++ .word "FROM" :: .word table :: .word "WHERE" ::
        (kinds ++ (orderKinds orderBy ++ (limitKinds limit ++ [.done]))))
      ⟨table, projection, some e, orderBy, limit.map fun value => value.val.toNat⟩ [.done] := by
  refine (reads_projection hprojection _).bind ((reads_expectWord "FROM").bind ((reads_word table).bind ?_))
  exact (h.reads orderBy limit).bind ((reads_orderBy orderBy limit).bind
    ((reads_limit hlimit).bind (reads_pure _)))

theorem reads_assignment (a : String × Value) (rest : List TokenKind) :
    Reads tokens (assignment tokens) (assignmentKinds a ++ rest) a rest :=
  (reads_word a.1).bind ((reads_expectSimple _).bind ((reads_literal a.2).bind (reads_pure _)))

theorem length_intercalate_le (assignments : List (String × Value)) :
    assignments.length ≤ ([TokenKind.comma].intercalate (assignments.map assignmentKinds)).length := by
  induction assignments with
  | nil => exact le_rfl
  | cons a assignments ih =>
    cases assignments with
    | nil => simp [assignmentKinds]
    | cons a' assignments =>
      rw [List.map_cons, List.map_cons, List.intercalate_cons_cons, List.length_append, List.length_append, List.length_cons]
      rw [List.map_cons] at ih
      simp only [assignmentKinds, List.length_cons, List.length_nil] at ih ⊢
      omega

/-- **An `UPDATE` with a filter.** -/
theorem Filters.update (h : Filters kinds e) (table : String) {assignments : List (String × Value)}
    (hne : assignments ≠ []) :
    Reads tokens (Parser.update tokens tokens.length) (.word table :: .word "SET" ::
      ([.comma].intercalate (assignments.map assignmentKinds) ++ .word "WHERE" :: (kinds ++ [.done])))
      (.update table assignments (some e)) [.done] := by
  intro offset hahead
  have hlen : assignments.length ≤ tokens.length := by
    have hle := hahead.length_le
    have hitems := length_intercalate_le assignments
    simp only [List.length_cons, List.length_append] at hle
    omega
  refine Reads.bind (reads_word table) ((reads_expectWord "SET").bind ?_) offset hahead
  refine (reads_commaSeparated reads_assignment hne (by simp) hlen).bind ?_
  exact h.reads_done.bind (reads_pure _)

/-- **A `DELETE` with a filter.** -/
theorem Filters.delete (h : Filters kinds e) (table : String) :
    Reads tokens (Parser.delete tokens tokens.length) (.word table :: .word "WHERE" :: (kinds ++ [.done]))
      (.delete table (some e)) [.done] :=
  (reads_word table).bind (h.reads_done.bind (reads_pure _))

end Statements

end Parser

/-- Behind the `WHERE` of a `SELECT`, an `UPDATE` or a `DELETE`, the tokens are parsed as `e`. -/
def WhereParses (kinds : List TokenKind) (e : Expr) : Prop :=
  (∀ projection table orderBy limit, Projection.Named projection → IsName table →
    (∀ order ∈ orderBy, IsName order.1) → (∀ value ∈ limit, 0 ≤ value.val) →
    parse (selectWhere projection table kinds orderBy limit) =
      .ok [.select ⟨table, projection, some e, orderBy, limit.map fun value => value.val.toNat⟩]) ∧
  (∀ table assignments, IsName table → assignments ≠ [] → (∀ assignment ∈ assignments, IsName assignment.1) →
    parse (updateWhere table assignments kinds) = .ok [.update table assignments (some e)]) ∧
  ∀ table, IsName table → parse (deleteWhere table kinds) = .ok [.delete table (some e)]

section Writable
variable {kinds : List TokenKind}

theorem writable_keyword {w : String}
    (h : (w.toList.head?.any fun c => !c.isDigit) = true ∧ w.toList.all isNameChar = true) :
    (TokenKind.word w).Writable := writable_word (isName_keyword h)

theorem writable_comma : TokenKind.comma.Writable := Parser.writable_symbol (by decide) (by simp)

theorem writable_intercalate {items : List (List TokenKind)} (h : ∀ kinds ∈ items, ∀ kind ∈ kinds, kind.Writable) :
    ∀ kind ∈ [TokenKind.comma].intercalate items, kind.Writable := by
  induction items with
  | nil => exact fun kind hkind => absurd hkind List.not_mem_nil
  | cons kinds items ih =>
    obtain ⟨hkinds, hitems⟩ := List.forall_mem_cons.1 h
    cases items with
    | nil => rwa [List.intercalate_singleton]
    | cons next items =>
      rw [List.intercalate_cons_cons]
      exact List.forall_mem_append.2 ⟨List.forall_mem_append.2 ⟨hkinds, List.forall_mem_singleton.2 writable_comma⟩,
        ih hitems⟩

theorem Projection.Named.writable {projection : Projection} (h : projection.Named) :
    ∀ kind ∈ projection.kinds, kind.Writable := by
  cases projection with
  | all => exact List.forall_mem_singleton.2 (Parser.writable_symbol (by decide) (by simp))
  | columns names =>
    rw [Projection.kinds, ← Parser.intercalate_singletons]
    refine writable_intercalate (List.forall_mem_map.2 fun name hname => ?_)
    exact List.forall_mem_singleton.2 (writable_word (h.2 name hname))

theorem writable_assignments {assignments : List (String × Value)} (h : ∀ assignment ∈ assignments, IsName assignment.1) :
    ∀ kind ∈ [TokenKind.comma].intercalate (assignments.map assignmentKinds), kind.Writable := by
  refine writable_intercalate (List.forall_mem_map.2 fun assignment ha => ?_)
  exact List.forall_mem_cons.2 ⟨writable_word (h assignment ha), List.forall_mem_cons.2
    ⟨Parser.writable_symbol (by decide) (by simp), List.forall_mem_singleton.2 (Parser.writable_token _)⟩⟩

theorem writable_orderKinds {orderBy : Option (String × Bool)} (h : ∀ order ∈ orderBy, IsName order.1) :
    ∀ kind ∈ orderKinds orderBy, kind.Writable := by
  cases orderBy with
  | none => exact fun kind hkind => absurd hkind List.not_mem_nil
  | some order =>
    obtain ⟨column, ascending⟩ := order
    refine List.forall_mem_cons.2 ⟨writable_keyword (by decide +kernel), List.forall_mem_cons.2
      ⟨writable_keyword (by decide +kernel), List.forall_mem_cons.2 ⟨writable_word (h _ rfl),
        List.forall_mem_singleton.2 ?_⟩⟩⟩
    cases ascending with
    | true => exact writable_keyword (by decide +kernel)
    | false => exact writable_keyword (by decide +kernel)

theorem writable_limitKinds (limit : Option I64) : ∀ kind ∈ limitKinds limit, kind.Writable := by
  cases limit with
  | none => exact fun kind hkind => absurd hkind List.not_mem_nil
  | some value =>
    exact List.forall_mem_cons.2 ⟨writable_keyword (by decide +kernel),
      List.forall_mem_singleton.2 (Parser.writable_symbol (by simp) (by simp))⟩

end Writable

section Where
variable {kinds : List TokenKind} {e : Expr}

open NutDb.Sql.Parser

theorem Parser.Filters.parse_select (h : Filters kinds e) {projection : Projection} (hprojection : projection.Named)
    {table : String} (htable : IsName table) {orderBy : Option (String × Bool)}
    (horder : ∀ order ∈ orderBy, IsName order.1) {limit : Option I64} (hlimit : ∀ value ∈ limit, 0 ≤ value.val) :
    parse (selectWhere projection table kinds orderBy limit) =
      .ok [.select ⟨table, projection, some e, orderBy, limit.map fun value => value.val.toNat⟩] := by
  refine parse_eq_of_reads (lexes_spaced ?_) fun tokens => ?_
  · refine List.forall_mem_cons.2 ⟨writable_keyword (by decide +kernel), List.forall_mem_append.2
      ⟨hprojection.writable, List.forall_mem_cons.2 ⟨writable_keyword (by decide +kernel), ?_⟩⟩⟩
    refine List.forall_mem_cons.2 ⟨writable_word htable, List.forall_mem_cons.2
      ⟨writable_keyword (by decide +kernel), List.forall_mem_append.2 ⟨h.1, ?_⟩⟩⟩
    exact List.forall_mem_append.2 ⟨writable_orderKinds horder, writable_limitKinds limit⟩
  · simp only [List.append_assoc, List.cons_append]
    exact (reads_consumeWord_other (by simp)).bind ((reads_consumeWord_other (by simp)).bind
      ((reads_consumeWord "SELECT").bind ((h.select hprojection table orderBy hlimit).bind (reads_pure _))))

theorem Parser.Filters.parse_update (h : Filters kinds e) {table : String} (htable : IsName table)
    {assignments : List (String × Value)} (hne : assignments ≠ [])
    (hnames : ∀ assignment ∈ assignments, IsName assignment.1) :
    parse (updateWhere table assignments kinds) = .ok [.update table assignments (some e)] := by
  refine parse_eq_of_reads (lexes_spaced ?_) fun tokens => ?_
  · refine List.forall_mem_cons.2 ⟨writable_keyword (by decide +kernel), List.forall_mem_cons.2
      ⟨writable_word htable, List.forall_mem_cons.2 ⟨writable_keyword (by decide +kernel), ?_⟩⟩⟩
    exact List.forall_mem_append.2 ⟨writable_assignments hnames, List.forall_mem_cons.2
      ⟨writable_keyword (by decide +kernel), h.1⟩⟩
  · simp only [List.append_assoc, List.cons_append]
    exact (reads_consumeWord_other (by simp)).bind ((reads_consumeWord_other (by simp)).bind
      ((reads_consumeWord_other (by simp)).bind ((reads_consumeWord "UPDATE").bind (h.update table hne))))

theorem Parser.Filters.parse_delete (h : Filters kinds e) {table : String} (htable : IsName table) :
    parse (deleteWhere table kinds) = .ok [.delete table (some e)] := by
  refine parse_eq_of_reads (lexes_spaced ?_) fun tokens => ?_
  · exact List.forall_mem_cons.2 ⟨writable_keyword (by decide +kernel), List.forall_mem_cons.2
      ⟨writable_keyword (by decide +kernel), List.forall_mem_cons.2 ⟨writable_word htable, List.forall_mem_cons.2
        ⟨writable_keyword (by decide +kernel), h.1⟩⟩⟩⟩
  · exact (reads_consumeWord_other (by simp)).bind ((reads_consumeWord_other (by simp)).bind
      ((reads_consumeWord_other (by simp)).bind ((reads_consumeWord_other (by simp)).bind
        ((reads_consumeWord "DELETE").bind ((reads_expectWord "FROM").bind (h.delete table))))))

theorem Parser.Filters.whereParses (h : Filters kinds e) : WhereParses kinds e :=
  ⟨fun _ _ _ _ hprojection htable horder hlimit => h.parse_select hprojection htable horder hlimit,
    fun _ _ htable hne hnames => h.parse_update htable hne hnames, fun _ htable => h.parse_delete htable⟩

end Where

/-- **`WHERE` expressions are parsed as they were written**: with parentheses around operands that are
    operators, and, without parentheses, as chains of comparisons with `AND` before `OR`. -/
theorem where_parses : (∀ e : Expr, e.Named → WhereParses e.kinds e) ∧
    ∀ (first : Expr) (rest : List (Joiner × Expr)),
      (∀ e ∈ first :: rest.map Prod.snd, e.Named ∧ e.isComparison = true) →
      WhereParses (chainKinds first rest) (chainTree first rest) :=
  ⟨fun _ h => (Parser.filters_expr h).whereParses, fun _ _ h => (Parser.filters_chain h).whereParses⟩

/-- `A = 1 OR ORDER = 'x' AND OR < NULL`, with columns that are named like words of the language. -/
theorem where_parses_delete :
    parse (deleteWhere "T" (chainKinds (.binary .eq (.column "A") (.literal (.integer ⟨1, by decide⟩)))
        [(.or, .binary .eq (.column "ORDER") (.literal (.text "x"))),
          (.and, .binary .lt (.column "OR") (.literal .null))])) =
      .ok [.delete "T" (some (.binary .or (.binary .eq (.column "A") (.literal (.integer ⟨1, by decide⟩)))
        (.binary .and (.binary .eq (.column "ORDER") (.literal (.text "x")))
          (.binary .lt (.column "OR") (.literal .null)))))] := by
  have hname : ∀ w ∈ ["A", "ORDER", "OR"], IsName w ∧ w ≠ "NULL" ∧ w ≠ "TRUE" ∧ w ≠ "FALSE" := by
    simp only [List.forall_mem_cons]
    exact ⟨⟨isName_keyword (by decide +kernel), by decide⟩, ⟨isName_keyword (by decide +kernel), by decide⟩,
      ⟨isName_keyword (by decide +kernel), by decide⟩, fun _ h => absurd h List.not_mem_nil⟩
  refine (where_parses.2 _ _ ?_).2.2 "T" (isName_keyword (by decide +kernel))
  simp only [List.map_cons, List.map_nil, List.forall_mem_cons]
  exact ⟨⟨⟨hname _ (by simp), trivial⟩, rfl⟩, ⟨⟨hname _ (by simp), trivial⟩, rfl⟩, ⟨⟨hname _ (by simp), trivial⟩, rfl⟩,
    fun _ h => absurd h List.not_mem_nil⟩

end NutDb.Sql
