/-
  The parser on a stack.

  The parser never steps over the `End`, and each turn of its loops consumes a
  token.  Its recursion is that of `primary` along nested parentheses, and the
  source does not bound it: on a stack with room for `frames` nested calls the
  parser overflows where so many parentheses are open (`Deep`).

  `Runs` compares the parser `x` on that stack with the parser `y` on a larger one,
  part by part, and both with the grammar.  From an offset where the grammar goes on
  as from the stack `s`, `y` returns: at an offset before the end of the tokens, at
  least `k` tokens further, where the grammar goes on as from `m`, or with an error,
  where the grammar refuses a token.  And `x` does the same, if `y` passes no offset
  with `frames` open parentheses; if it passes one, the stack of `x` overflows.
-/
import NutDb.Sql.Expressions
import NutDb.Sql.Grammar
import NutDb.Sql.Total

namespace NutDb.Sql

open Lib
open Grammar (just)

namespace Parser

/-! ## Two stacks -/

/-- Before the offset, the grammar has not refused a token, and `frames` parentheses or more are open. -/
abbrev Deep (tokens : List Token) (frames offset : ℕ) : Prop := grammar.Deep frames (tokens.map Token.kind) offset

/-- At the offset, the grammar goes on as from the stack `s`. -/
abbrev Stands (tokens : List Token) (offset : ℕ) (s : List Phrase) : Prop :=
  grammar.Stands (tokens.map Token.kind) offset s

/-- The grammar refuses the token at the offset, or one before it. -/
abbrev Refused (tokens : List Token) (offset : ℕ) : Prop :=
  grammar.standing (tokens.map Token.kind) (offset + 1) = none

/-- The parser `x` does what `y` does, or its stack overflows: this is so if `y` passes an offset with
    `frames` open parentheses. -/
def Follows {α : Type} (tokens : List Token) (frames offset : ℕ) (x y : Act ℕ α) : Prop :=
  (∃ i, offset ≤ i ∧ i ≤ (y.run offset).2 ∧ Deep tokens frames i) ∧
      (x.run offset).1 = .error (.panic .stackOverflow) ∨
    (∀ i, offset ≤ i → i ≤ (y.run offset).2 → ¬Deep tokens frames i) ∧ x.run offset = y.run offset

/-- From the offset, `y` returns: at an offset before the end of the tokens that is at least `k a` tokens
    further and where the grammar goes on as from `m a`, or where the grammar has refused a token; `x` follows it. -/
structure RunsAt {α : Type} (tokens : List Token) (frames offset : ℕ) (k : α → ℕ) (m : α → List Phrase)
    (x y : Act ℕ α) : Prop where
  returns : Res.Returns (y.run offset).1
  forward : offset ≤ (y.run offset).2
  ok : ∀ a offset', y.run offset = (.ok a, offset') →
    offset + k a ≤ offset' ∧ offset' < tokens.length ∧ Stands tokens offset' (m a)
  refused : ∀ e offset', y.run offset = (.error e, offset') → Refused tokens offset'
  follows : ¬Deep tokens frames offset → Follows tokens frames offset x y

/-- `x` and `y` run from every offset where the grammar goes on as from `s` and that leaves a token, and not
    more than `left`. -/
def Runs {α : Type} (tokens : List Token) (frames left : ℕ) (s : List Phrase) (k : α → ℕ) (m : α → List Phrase)
    (x y : Act ℕ α) : Prop :=
  ∀ offset < tokens.length, tokens.length ≤ offset + left → Stands tokens offset s →
    RunsAt tokens frames offset k m x y

/-- `x` and `y` run over an operand, with `n` parentheses open around it. -/
def Operand (tokens : List Token) (frames left n : ℕ) (part : List Phrase) (x y : Act ℕ Expr) : Prop :=
  ∀ rest, grammar.depth rest = n → Runs tokens frames left (part ++ rest) (fun _ => 1) (fun _ => rest) x y

section Rules
variable {α β : Type} {tokens : List Token} {token : Token} {frames left offset : ℕ} {s : List Phrase} {k : α → ℕ}
  {m : α → List Phrase} {x y : Act ℕ α} {k' : β → ℕ} {m' : β → List Phrase} {f g : α → Act ℕ β}

theorem getElem?_kind (h : tokens[offset]? = some token) : (tokens.map Token.kind)[offset]? = some token.kind := by
  rw [List.getElem?_map, h]
  rfl

/-- A part that stays where it is. -/
theorem RunsAt.stay {r : Res α} (hrun : x.run offset = (r, offset)) (hr : r.Returns) (hlt : offset < tokens.length)
    (hok : ∀ a, r = .ok a → k a = 0 ∧ Stands tokens offset (m a))
    (herror : ∀ e, r = .error e → Refused tokens offset) : RunsAt tokens frames offset k m x x := by
  refine ⟨by rwa [hrun], by rw [hrun], fun a offset' h => ?_, fun e offset' h => ?_,
    fun hnest => Or.inr ⟨fun i hle hge => ?_, rfl⟩⟩
  · rw [hrun] at h
    cases h
    obtain ⟨h1, h2⟩ := hok a rfl
    exact ⟨by rw [h1, Nat.add_zero], hlt, h2⟩
  · rw [hrun] at h
    cases h
    exact herror e rfl
  · rw [hrun] at hge
    rwa [Nat.le_antisymm hge hle]

theorem runs_pure (a : α) (hk : k a = 0) (hm : m a = s) : Runs tokens frames left s k m (pure a) (pure a) := by
  refine fun offset hoffset _ hs => .stay rfl (Res.returns_ok a) hoffset (fun b hb => ?_) fun _ h => (nomatch h)
  cases hb
  exact ⟨hk, hm ▸ hs⟩

/-- An error, where nothing may stand. -/
theorem runs_error (pos : ℕ) (message : String) :
    Runs tokens frames left (.choice [] :: s) k m (Act.lift (error pos message)) (Act.lift (error pos message)) :=
  fun _ hoffset _ hs => .stay rfl (Res.returns_fail _ _) hoffset (fun _ h => (nomatch h))
    fun _ _ => hs.step (getElem?_kind (List.getElem?_eq_getElem hoffset))

theorem Follows.bind (hx : Follows tokens frames offset x y)
    (hforward : ∀ a offset₁, y.run offset = (.ok a, offset₁) → offset ≤ offset₁ ∧ offset₁ ≤ ((g a).run offset₁).2)
    (hf : ∀ a offset₁, y.run offset = (.ok a, offset₁) → ¬Deep tokens frames offset₁ →
      Follows tokens frames offset₁ (f a) (g a)) :
    Follows tokens frames offset (x >>= f) (y >>= g) := by
  rcases hrun : y.run offset with ⟨e | a, offset₁⟩
  · have hlast : (y >>= g).run offset = (.error e, offset₁) := Act.run_bind_error hrun
    unfold Follows at hx ⊢
    rw [hrun] at hx
    rw [hlast]
    rcases hx with ⟨hdeep, hover⟩ | ⟨hflat, hsame⟩
    · exact Or.inl ⟨hdeep, by rw [Act.run_bind_error (Prod.ext hover rfl)]⟩
    · exact Or.inr ⟨hflat, Act.run_bind_error hsame⟩
  · have hlast : (y >>= g).run offset = (g a).run offset₁ := Act.run_bind_ok hrun
    obtain ⟨hle, hle'⟩ := hforward a offset₁ hrun
    unfold Follows at hx ⊢
    rw [hrun] at hx
    rw [hlast]
    rcases hx with ⟨⟨i, h1, h2, hdeep⟩, hover⟩ | ⟨hflat, hsame⟩
    · exact Or.inl ⟨⟨i, h1, h2.trans hle', hdeep⟩, by rw [Act.run_bind_error (Prod.ext hover rfl)]⟩
    · rw [Act.run_bind_ok hsame]
      rcases hf a offset₁ hrun (hflat offset₁ hle le_rfl) with ⟨⟨i, h1, h2, hdeep⟩, hover⟩ | ⟨hflat', hsame'⟩
      · exact Or.inl ⟨⟨i, hle.trans h1, h2, hdeep⟩, hover⟩
      · refine Or.inr ⟨fun i h1 h2 => ?_, hsame'⟩
        rcases le_total i offset₁ with hi | hi
        · exact hflat i h1 hi
        · exact hflat' i hi h2

theorem RunsAt.bind (hx : RunsAt tokens frames offset k m x y) (hleft : tokens.length ≤ offset + left)
    (hf : ∀ a, Runs tokens frames (left - k a) (m a) (fun b => k' b - k a) m' (f a) (g a)) :
    RunsAt tokens frames offset k' m' (x >>= f) (y >>= g) := by
  have hnext : ∀ a offset₁, y.run offset = (.ok a, offset₁) → offset + k a ≤ offset₁ ∧
      RunsAt tokens frames offset₁ (fun b => k' b - k a) m' (f a) (g a) := by
    intro a offset₁ hrun
    obtain ⟨hle, hlt, hm⟩ := hx.ok a offset₁ hrun
    exact ⟨hle, hf a offset₁ hlt (by omega) hm⟩
  have hfollows := fun hnest => (hx.follows hnest).bind
    (fun a offset₁ hrun => ⟨le_of_add_le_left (hnext a offset₁ hrun).1, (hnext a offset₁ hrun).2.forward⟩)
    (fun a offset₁ hrun hnest => (hnext a offset₁ hrun).2.follows hnest)
  rcases hrun : y.run offset with ⟨e | a, offset₁⟩
  · have hlast : (y >>= g).run offset = (.error e, offset₁) := Act.run_bind_error hrun
    have hret := hx.returns
    have hforward := hx.forward
    rw [hrun] at hret hforward
    refine ⟨fun p hp => hret p ?_, by rwa [hlast], fun b offset' h => ?_, fun e' offset' h => ?_, hfollows⟩
    · rw [hlast] at hp
      cases hp
      rfl
    · rw [hlast] at h
      cases h
    · rw [hlast] at h
      cases h
      exact hx.refused e offset₁ hrun
  · have hlast : (y >>= g).run offset = (g a).run offset₁ := Act.run_bind_ok hrun
    obtain ⟨hle, hrest⟩ := hnext a offset₁ hrun
    refine ⟨by rw [hlast]; exact hrest.returns, ?_, fun b offset' h => ?_, fun e offset' h => ?_, hfollows⟩
    · rw [hlast]
      exact (le_of_add_le_left hle).trans hrest.forward
    · rw [hlast] at h
      obtain ⟨hle', hlt', hm'⟩ := hrest.ok b offset' h
      exact ⟨by omega, hlt', hm'⟩
    · rw [hlast] at h
      exact hrest.refused e offset' h

/-- **Sequences**: what the first part has consumed counts for the second. -/
theorem Runs.bind (hx : Runs tokens frames left s k m x y)
    (hf : ∀ a, Runs tokens frames (left - k a) (m a) (fun b => k' b - k a) m' (f a) (g a)) :
    Runs tokens frames left s k' m' (x >>= f) (y >>= g) :=
  fun offset hoffset hleft hs => (hx offset hoffset hleft hs).bind hleft hf

theorem Runs.weaken {k₁ : α → ℕ} (hx : Runs tokens frames left s k m x y) (hk : ∀ a, k₁ a ≤ k a) :
    Runs tokens frames left s k₁ m x y := by
  intro offset hoffset hleft hs
  obtain ⟨hret, hforward, hok, hrefused, hfollows⟩ := hx offset hoffset hleft hs
  refine ⟨hret, hforward, fun a offset' h => ?_, hrefused, hfollows⟩
  obtain ⟨hle, hrest⟩ := hok a offset' h
  exact ⟨(Nat.add_le_add_left (hk a) _).trans hle, hrest⟩

/-- Fewer tokens are left. -/
theorem Runs.fewer {left' : ℕ} (hx : Runs tokens frames left' s k m x y) (h : left ≤ left') :
    Runs tokens frames left s k m x y :=
  fun offset hoffset hleft => hx offset hoffset (hleft.trans (Nat.add_le_add_left h _))

theorem Operand.fewer {left' n : ℕ} {part : List Phrase} {x y : Act ℕ Expr}
    (hx : Operand tokens frames left' n part x y) (h : left ≤ left') : Operand tokens frames left n part x y :=
  fun rest hrest => (hx rest hrest).fewer h

/-- Never more tokens are left than there are. -/
theorem Runs.of_min (hx : Runs tokens frames (min tokens.length left) s k m x y) :
    Runs tokens frames left s k m x y :=
  fun offset hoffset hleft => hx offset hoffset (by omega)

theorem Runs.anywhere (hx : Runs tokens frames tokens.length s k m x y) : Runs tokens frames left s k m x y :=
  .of_min (hx.fewer (min_le_left _ _))

/-- No turns are left, and no tokens. -/
theorem runs_zero : Runs tokens frames 0 s k m x y :=
  fun _ hoffset hleft => absurd hoffset (not_lt.2 hleft)

/-- A part that only looks. -/
theorem RunsAt.look {z : Act ℕ α} {a : α} (hrun : z.run offset = (.ok a, offset))
    (hf : RunsAt tokens frames offset k' m' (f a) (g a)) :
    RunsAt tokens frames offset k' m' (z >>= f) (z >>= g) := by
  have hf' : (z >>= f).run offset = (f a).run offset := Act.run_bind_ok hrun
  have hg' : (z >>= g).run offset = (g a).run offset := Act.run_bind_ok hrun
  obtain ⟨hret, hforward, hok, hrefused, hfollows⟩ := hf
  refine ⟨by rwa [hg'], by rwa [hg'], fun b offset' h => hok b offset' (by rwa [← hg']),
    fun e offset' h => hrefused e offset' (by rwa [← hg']), fun hnest => ?_⟩
  unfold Follows
  rw [hf', hg']
  exact hfollows hnest

/-- A part that steps over a token first, perhaps to where the stack overflows. -/
theorem RunsAt.step {x' y' : Act ℕ α} (hx : x.run offset = x'.run (offset + 1))
    (hy : y.run offset = y'.run (offset + 1)) (h : RunsAt tokens frames (offset + 1) k m x' y')
    (hover : Deep tokens frames (offset + 1) → (x'.run (offset + 1)).1 = .error (.panic .stackOverflow)) :
    RunsAt tokens frames offset k m x y := by
  obtain ⟨hret, hforward, hok, hrefused, hfollows⟩ := h
  refine ⟨by rwa [hy], ?_, fun a offset' h => ?_, fun e offset' h => hrefused e offset' (by rwa [← hy]),
    fun hnest => ?_⟩
  · rw [hy]
    exact (Nat.le_succ offset).trans hforward
  · obtain ⟨hle, hrest⟩ := hok a offset' (by rwa [← hy])
    exact ⟨by omega, hrest⟩
  · unfold Follows at hfollows ⊢
    rw [hx, hy]
    by_cases hdeep : Deep tokens frames (offset + 1)
    · exact Or.inl ⟨⟨offset + 1, Nat.le_succ _, hforward, hdeep⟩, hover hdeep⟩
    · rcases hfollows hdeep with ⟨⟨i, h1, h2, hdeep⟩, hpanic⟩ | ⟨hall, hsame⟩
      · exact Or.inl ⟨⟨i, le_of_add_le_left h1, h2, hdeep⟩, hpanic⟩
      · refine Or.inr ⟨fun i h1 h2 => ?_, hsame⟩
        rcases Nat.eq_or_lt_of_le h1 with rfl | h1
        · exact hnest
        · exact hall i h1 h2

/-- Where the stack is full, nothing is said about the parser on it. -/
theorem RunsAt.full {frames' : ℕ} {x' : Act ℕ α} (h : RunsAt tokens frames' offset k m x' y)
    (hfull : Deep tokens frames offset) : RunsAt tokens frames offset k m x y :=
  ⟨h.returns, h.forward, h.ok, h.refused, fun hnest => absurd hfull hnest⟩

/-- Looking at the token first. -/
theorem runs_of_token (hx : ∀ offset token, tokens[offset]? = some token → tokens.length ≤ offset + left →
    Stands tokens offset s → RunsAt tokens frames offset k m x y) :
    Runs tokens frames left s k m x y :=
  fun offset hoffset hleft hs => hx offset _ (List.getElem?_eq_getElem hoffset) hleft hs

/-- The same stack, written in another way. -/
theorem Runs.of_stack {s' : List Phrase} (hx : Runs tokens frames left s' k m x y) {t : TokenKind} {s₀ : List Phrase}
    (hother : grammar.after s t = some s₀) (hafter : ∀ t, grammar.after s t = grammar.after s' t)
    (hdepth : grammar.depth s = grammar.depth s') : Runs tokens frames left s k m x y :=
  fun offset hoffset hleft hs => hx offset hoffset hleft
    (hs.congr hother (getElem?_kind (List.getElem?_eq_getElem hoffset)) (hafter _) hdepth)

end Rules

/-! ## Tokens -/

theorem after_token {first : TokenKind → Bool} {kind : TokenKind} (h : first kind = true) (rest : List Phrase) :
    grammar.after (Phrase.token first :: rest) kind = some rest := by
  rw [Phrase.token, Grammar.after, Grammar.choose, h]
  rfl

theorem after_symbol_of_ne {kind kind' : TokenKind} (h : kind' ≠ kind) (rest : List Phrase) :
    grammar.after (Phrase.symbol kind :: rest) kind' = none := by
  rw [Phrase.symbol, Phrase.token, Grammar.after, Grammar.choose, Grammar.just_of_ne h]
  rfl

theorem splits_close (rest : List Phrase) :
    grammar.Splits (.rule .close :: rest) .rightParen rest (.choice [] :: .rule .close :: rest) := by
  refine ⟨rfl, fun kind h => ?_, Nat.le_add_left _ _, rfl⟩
  change (Grammar.choose [(just .rightParen, [])] kind).map _ = _
  rw [Grammar.choose, Grammar.just_of_ne h]
  rfl

/-- Names between commas, and then another token. -/
theorem splits_more {kind : TokenKind} (hkind : kind ≠ .comma) (rest : List Phrase) :
    grammar.Splits (Phrase.more [Phrase.name] :: Phrase.symbol kind :: rest) kind rest
      (Phrase.symbol .comma :: Phrase.name :: Phrase.more [Phrase.name] :: Phrase.symbol kind :: rest) := by
  have hcomma (kind' : TokenKind) : grammar.after (Phrase.more [Phrase.name] :: Phrase.symbol kind :: rest) kind' =
      bif just .comma kind' then some (Phrase.name :: Phrase.more [Phrase.name] :: Phrase.symbol kind :: rest)
      else grammar.after (Phrase.symbol kind :: rest) kind' := rfl
  refine ⟨?_, fun kind' h => ?_, le_rfl, rfl⟩
  · rw [hcomma, Grammar.just_of_ne hkind]
    exact after_token (Grammar.just_self kind) rest
  · rw [hcomma, after_symbol_of_ne h]
    by_cases hkind' : kind' = .comma
    · rw [hkind', Grammar.just_self]
      rfl
    · rw [Grammar.just_of_ne hkind', after_symbol_of_ne hkind']
      rfl

theorem splits_direction (rest : List Phrase) :
    grammar.Splits (.optional Phrase.isDirection [] :: rest) (.word "DESC") rest
      (.optional (just (.word "ASC")) [] :: rest) := by
  have hdirection : ∀ kind, kind ≠ .word "DESC" → Phrase.isDirection kind = just (.word "ASC") kind := by
    intro kind hkind
    cases kind with
    | word w =>
      have hw : w ≠ "DESC" := fun h => hkind (h ▸ rfl)
      simp [Phrase.isDirection, just, hw]
    | _ => rfl
  refine ⟨rfl, fun kind h => ?_, le_rfl, rfl⟩
  rw [Grammar.after, Grammar.after, hdirection kind h]

theorem splits_script : grammar.Splits [.rule .script] .done []
    [.choice ((just .semicolon, [.rule .script]) :: Phrase.statements)] :=
  ⟨rfl, (Grammar.splits_choice rfl _ []).after_of_ne, le_rfl, rfl⟩

section Look
variable {α : Type} {tokens : List Token} {frames left offset : ℕ} {s found missing : List Phrase}
  {k : α → ℕ} {m : α → List Phrase} {token : Token}

theorem run_peek (h : tokens[offset]? = some token) : (peek tokens).run offset = (.ok token, offset) :=
  Prod.ext (Res.get_eq_ok.2 h) rfl

theorem run_atEnd (h : tokens[offset]? = some token) :
    (atEnd tokens).run offset = (.ok (token.kind == .done), offset) := by
  rw [atEnd, Act.run_bind_ok (run_peek h)]
  rfl

theorem run_checkWord (h : tokens[offset]? = some token) (w : String) :
    (checkWord tokens w).run offset = (.ok (token.kind == .word w), offset) := by
  rw [checkWord, Act.run_bind_ok (run_peek h)]
  rfl

theorem runs_expected (what : String) :
    Runs tokens frames left (.choice [] :: s) k m (expected tokens what) (expected tokens what) :=
  runs_of_token fun offset _ htoken hleft hs =>
    .look (run_peek htoken) (runs_error _ _ offset (List.getElem?_eq_some_iff.1 htoken).1 hleft hs)

/-- A look at whether a token stands there; `again` goes on with it as `s` does. -/
theorem runs_check {check : Act ℕ Bool} {kind : TokenKind} (again : List Phrase)
    (hsplit : grammar.Splits s kind found missing) (hagain : grammar.after again kind = some found)
    (hdepth : grammar.depth s = grammar.depth again)
    (hrun : ∀ offset token, tokens[offset]? = some token → check.run offset = (.ok (token.kind == kind), offset)) :
    Runs tokens frames left s (fun _ => 0) (fun yes => bif yes then again else missing) check check := by
  refine runs_of_token fun offset token h _ hs => .stay (hrun offset token h) (Res.returns_ok _)
    (List.getElem?_eq_some_iff.1 h).1 (fun yes hyes => ⟨rfl, ?_⟩) fun _ h => (nomatch h)
  obtain rfl : (token.kind == kind) = yes := Except.ok.inj hyes
  by_cases heq : token.kind = kind
  · rw [beq_iff_eq.2 heq]
    refine hs.congr hsplit.after_self (getElem?_kind h) ?_ hdepth
    rw [heq, hsplit.after_self]
    exact hagain.symm
  · rw [beq_false_of_ne heq]
    exact hsplit.stands_missing hs (getElem?_kind h) heq

theorem runs_atEnd (again : List Phrase) (hsplit : grammar.Splits s .done found missing)
    (hagain : grammar.after again .done = some found) (hdepth : grammar.depth s = grammar.depth again) :
    Runs tokens frames left s (fun _ => 0) (fun atEnd => bif atEnd then again else missing)
      (atEnd tokens) (atEnd tokens) :=
  runs_check again hsplit hagain hdepth fun _ _ h => run_atEnd h

theorem runs_checkWord {w : String} (again : List Phrase) (hsplit : grammar.Splits s (.word w) found missing)
    (hagain : grammar.after again (.word w) = some found) (hdepth : grammar.depth s = grammar.depth again) :
    Runs tokens frames left s (fun _ => 0) (fun found => bif found then again else missing)
      (checkWord tokens w) (checkWord tokens w) :=
  runs_check again hsplit hagain hdepth fun _ _ h => run_checkWord h w

theorem runs_namedType (w : String) :
    Runs tokens frames left (bif Phrase.isTypeName (.word w) then s else .choice [] :: s) (fun _ => 0)
      (fun _ => s) (namedType tokens w) (namedType tokens w) := by
  have hname (h : w ∈ ["INT", "INTEGER", "TEXT", "BOOL", "BOOLEAN"]) : Phrase.isTypeName (.word w) = true :=
    decide_eq_true h
  unfold namedType
  split_ifs with h1 h2 h3
  · rw [hname (by rcases h1 with rfl | rfl <;> simp)]
    exact runs_pure _ rfl rfl
  · rw [hname (by simp [h2])]
    exact runs_pure _ rfl rfl
  · rw [hname (by rcases h3 with rfl | rfl <;> simp)]
    exact runs_pure _ rfl rfl
  · rw [show Phrase.isTypeName (.word w) = false from decide_eq_false (by simp [not_or.1 h1, h2, not_or.1 h3])]
    exact runs_expected _

/-- A word that stands where a literal is due. -/
theorem runs_literalWord {w : String} {pos : ℕ} {x : Act ℕ Value}
    (hx : x = if w = "NULL" then pure .null else if w = "TRUE" then pure (.boolean true)
      else if w = "FALSE" then pure (.boolean false) else Act.lift (error pos "expected a literal value")) :
    Runs tokens frames left (bif Phrase.isLiteral (.word w) then s else .choice [] :: s) (fun _ => 0) (fun _ => s)
      x x := by
  rw [hx]
  have hliteral (h : w ∈ ["NULL", "TRUE", "FALSE"]) : Phrase.isLiteral (.word w) = true := decide_eq_true h
  split_ifs with h1 h2 h3
  · rw [hliteral (by simp [h1])]
    exact runs_pure _ rfl rfl
  · rw [hliteral (by simp [h2])]
    exact runs_pure _ rfl rfl
  · rw [hliteral (by simp [h3])]
    exact runs_pure _ rfl rfl
  · rw [show Phrase.isLiteral (.word w) = false from decide_eq_false (by simp [h1, h2, h3])]
    exact runs_error _ _

end Look

section Tokens
variable {α : Type} {tokens : List Token} {len : ℕ} (hends : EndsOnce tokens len)
  {frames left offset : ℕ} {s rest found missing : List Phrase} {token : Token}
include hends

/-- The `End` is the last token. -/
theorem eq_of_done (h : tokens[offset]? = some token) (hkind : token.kind = .done) : offset = tokens.length - 1 := by
  obtain ⟨init, rfl, hinit⟩ := hends
  obtain ⟨hlt, hget⟩ := List.getElem?_eq_some_iff.1 h
  rw [List.length_append, List.length_singleton] at hlt ⊢
  rcases Nat.lt_or_ge offset init.length with hoffset | hoffset
  · rw [List.getElem_append_left hoffset] at hget
    exact absurd hkind (hinit token (hget ▸ List.getElem_mem hoffset))
  · omega

/-- A token that is not the last is followed by another one. -/
theorem lt_of_ne_done (h : tokens[offset]? = some token) (hkind : token.kind ≠ .done) :
    offset + 1 < tokens.length := by
  obtain ⟨init, rfl, -⟩ := hends
  obtain ⟨hlt, hget⟩ := List.getElem?_eq_some_iff.1 h
  rw [List.length_append, List.length_singleton] at hlt ⊢
  rcases Nat.lt_or_ge offset init.length with hinit | hinit
  · omega
  · rw [List.getElem_append_right hinit] at hget
    rw [← hget] at hkind
    simp at hkind

section Token
variable (h : tokens[offset]? = some token) (hs : Stands tokens offset s)
include h

/-- A token that is not the last may be skipped, if it opens no parenthesis. -/
theorem runsAt_skip (hkind : token.kind ≠ .done) (hnext : Stands tokens (offset + 1) s)
    (hnest : ¬Deep tokens frames offset → ¬Deep tokens frames (offset + 1)) :
    RunsAt tokens frames offset (fun _ => 1) (fun _ => s) skip skip := by
  refine ⟨Res.returns_ok (), Nat.le_succ offset, fun a offset' heq => ?_, fun e offset' heq => (nomatch heq),
    fun hflat => Or.inr ⟨fun i hle hge => ?_, rfl⟩⟩
  · cases heq
    exact ⟨le_rfl, lt_of_ne_done hends h hkind, hnext⟩
  · rcases Nat.le_succ_iff.1 hge with hi | rfl
    · rwa [Nat.le_antisymm hi hle]
    · exact hnest hflat

include hs

theorem runsAt_admitted {s' : List Phrase} (hkind : token.kind ≠ .done)
    (hafter : grammar.after s token.kind = some s') (hdepth : grammar.depth s' ≤ grammar.depth s) :
    RunsAt tokens frames offset (fun _ => 1) (fun _ => s') skip skip :=
  runsAt_skip hends h hkind (hs.succ (getElem?_kind h) hafter) (hs.not_deep_succ (getElem?_kind h) hafter hdepth)

/-- A token is skipped if it is the right one. -/
theorem runsAt_consume {kind : TokenKind} {c : Prop} [Decidable c] (hleft : tokens.length ≤ offset + left)
    (hkind : kind ≠ .done) (hsplit : grammar.Splits s kind found missing) (hc : c ↔ token.kind = kind) :
    RunsAt tokens frames offset Bool.toNat (fun yes => bif yes then found else missing)
      (if c then skip >>= fun _ => pure true else pure false)
      (if c then skip >>= fun _ => pure true else pure false) := by
  by_cases heq : token.kind = kind
  · rw [if_pos (hc.2 heq)]
    subst heq
    have hskip : RunsAt tokens frames offset (fun _ => 1) (fun _ => found) skip skip :=
      runsAt_admitted hends h hs hkind hsplit.after_self hsplit.depth_le
    exact hskip.bind hleft fun _ => runs_pure true rfl rfl
  · rw [if_neg (mt hc.1 heq)]
    exact runs_pure false rfl rfl offset (List.getElem?_eq_some_iff.1 h).1 hleft
      (hsplit.stands_missing hs (getElem?_kind h) heq)

end Token

theorem runs_consumeSimple {kind : TokenKind} (hkind : kind ≠ .done) (hsplit : grammar.Splits s kind found missing) :
    Runs tokens frames left s Bool.toNat (fun yes => bif yes then found else missing)
      (consumeSimple tokens kind) (consumeSimple tokens kind) :=
  runs_of_token fun _ _ h hleft hs => .look (run_peek h) (runsAt_consume hends h hs hleft hkind hsplit Iff.rfl)

theorem runs_consumeWord {w : String} (hsplit : grammar.Splits s (.word w) found missing) :
    Runs tokens frames left s Bool.toNat (fun yes => bif yes then found else missing)
      (consumeWord tokens w) (consumeWord tokens w) := by
  have hword : TokenKind.word w ≠ .done := fun h => (nomatch h)
  exact runs_of_token fun _ _ h hleft hs => .look (run_checkWord h w)
    (runsAt_consume hends h hs hleft hword hsplit beq_iff_eq)

theorem runs_expectSimple {kind : TokenKind} (hkind : kind ≠ .done)
    (hsplit : grammar.Splits s kind found (.choice [] :: rest)) (what : String) :
    Runs tokens frames left s (fun _ => 1) (fun _ => found)
      (expectSimple tokens kind what) (expectSimple tokens kind what) := by
  refine (runs_consumeSimple hends hkind hsplit).bind fun yes => ?_
  cases yes with
  | true => exact runs_pure () rfl rfl
  | false => exact runs_expected what

theorem runs_symbol {kind : TokenKind} (hkind : kind ≠ .done) (what : String) :
    Runs tokens frames left (Phrase.symbol kind :: rest) (fun _ => 1) (fun _ => rest)
      (expectSimple tokens kind what) (expectSimple tokens kind what) :=
  runs_expectSimple hends hkind (Grammar.splits_choice rfl [] rest) what

theorem runs_expectWord (w : String) : Runs tokens frames left (Phrase.keyword w :: rest) (fun _ => 1)
    (fun _ => rest) (expectWord tokens w) (expectWord tokens w) := by
  refine (runs_consumeWord hends (Grammar.splits_choice rfl [] rest)).bind fun found => ?_
  cases found with
  | true => exact runs_pure () rfl rfl
  | false => exact runs_expected _

/-- `advance` takes any token but the `End`. -/
theorem runs_advance {first : TokenKind → Bool} (hfirst : first .done = false) :
    Runs tokens frames left (Phrase.token first :: rest) (fun token => if token.kind = .done then 0 else 1)
      (fun token => bif first token.kind then rest else .choice [] :: rest) (advance tokens) (advance tokens) := by
  refine runs_of_token fun offset token h hleft hs => .look (run_peek h) (.look (run_atEnd h) ?_)
  have hafter : grammar.after (Phrase.token first :: rest) token.kind =
      bif first token.kind then some rest else none := by
    rw [Phrase.token, Grammar.after, Grammar.choose, Grammar.choose]
    cases first token.kind <;> rfl
  by_cases hdone : token.kind = .done
  · rw [hdone, hfirst] at hafter
    have hrefused : Stands tokens offset (.choice [] :: rest) :=
      hs.refuse (getElem?_kind h) (by rw [hdone, hafter]; rfl) rfl
    rw [if_pos (beq_iff_eq.2 hdone)]
    refine runs_pure token (if_pos hdone) ?_ offset (List.getElem?_eq_some_iff.1 h).1 hleft hrefused
    rw [hdone, hfirst]
    rfl
  · rw [if_neg (mt beq_iff_eq.1 hdone)]
    have hskip : RunsAt tokens frames offset (fun _ => 1)
        (fun _ => bif first token.kind then rest else .choice [] :: rest) skip skip := by
      cases hadmits : first token.kind with
      | true =>
        rw [hadmits] at hafter
        exact runsAt_admitted hends h hs hdone hafter le_rfl
      | false =>
        rw [hadmits] at hafter
        have hnone : Refused tokens offset := (hs.step (getElem?_kind h)).trans hafter
        exact runsAt_skip hends h hdone (Grammar.stands_of_none hnone rest) fun _ => Grammar.not_deep_of_none hnone
    exact hskip.bind hleft fun _ => runs_pure token (if_neg hdone ▸ rfl) rfl

theorem runs_word : Runs tokens frames left (Phrase.name :: rest) (fun _ => 1) (fun _ => rest)
    (word tokens) (word tokens) := by
  refine (runs_advance hends rfl).bind fun token => ?_
  cases hkind : token.kind with
  | word w => exact runs_pure w rfl rfl
  | _ => exact runs_error _ _

/-- A word that stands where a type is due. -/
theorem runs_typeWord : Runs tokens frames left (Phrase.token Phrase.isTypeName :: rest) (fun _ => 1)
    (fun w => bif Phrase.isTypeName (.word w) then rest else .choice [] :: rest) (word tokens) (word tokens) := by
  refine (runs_advance hends rfl).bind fun token => ?_
  cases hkind : token.kind with
  | word w => exact runs_pure w rfl rfl
  | _ => exact runs_error _ _

theorem runs_literal : Runs tokens frames left (Phrase.token Phrase.isLiteral :: rest) (fun _ => 1) (fun _ => rest)
    (literal tokens) (literal tokens) := by
  refine (runs_advance hends rfl).bind fun token => ?_
  cases hkind : token.kind with
  | integer value => exact runs_pure _ rfl rfl
  | string value => exact runs_pure _ rfl rfl
  | word w => exact runs_literalWord rfl
  | _ => exact runs_error _ _

/-! ## Loops -/

theorem runs_identifiersUntil {stop : Act ℕ Bool} {after : List Phrase}
    (hstop : ∀ left, Runs tokens frames left (Phrase.more [Phrase.name] :: rest) (fun _ => 0)
      (fun found => bif found then after else
        Phrase.symbol .comma :: Phrase.name :: Phrase.more [Phrase.name] :: rest) stop stop)
    (fuel : ℕ) : Runs tokens frames fuel (Phrase.name :: Phrase.more [Phrase.name] :: rest) (fun _ => 1)
      (fun _ => after) (identifiersUntil tokens stop fuel) (identifiersUntil tokens stop fuel) := by
  induction fuel with
  | zero => exact runs_zero
  | succ fuel ih =>
    refine (runs_word hends).bind fun name => (hstop _).bind fun found => ?_
    cases found with
    | true => exact runs_pure _ rfl rfl
    | false =>
      refine (runs_symbol hends (by decide) _).bind fun _ => (ih.fewer (by omega)).bind fun rest => ?_
      exact runs_pure _ rfl rfl

/-- Items between commas: each turn consumes a token. -/
theorem runs_commaSeparated {x : Act ℕ α} {item : List Phrase} (hdepth : grammar.depth item = 0)
    (hitem : ∀ left rest, Runs tokens frames left (item ++ rest) (fun _ => 1) (fun _ => rest) x x) (fuel : ℕ) :
    Runs tokens frames fuel (item ++ Phrase.more item :: rest) (fun _ => 1) (fun _ => rest)
      (commaSeparated tokens x fuel) (commaSeparated tokens x fuel) := by
  induction fuel with
  | zero => exact runs_zero
  | succ fuel ih =>
    have hsplit := Grammar.splits_many (t := TokenKind.comma) hdepth rest
    refine (hitem _ _).bind fun a => (runs_consumeSimple hends (by decide) hsplit).bind fun comma => ?_
    cases comma with
    | true => exact (ih.fewer (by omega)).bind fun rest => runs_pure _ rfl rfl
    | false => exact runs_pure _ rfl rfl

/-! ## Expressions -/

section Operands
variable {x y : Act ℕ Expr} {part : List Phrase} {n : ℕ}

/-- The loops of `and` and `or`, on operands that run as long as `left` tokens are left. -/
theorem runs_operatorLoop {w : String} {op : BinaryOp} {fuel : ℕ} (hdepth : grammar.depth part = 0)
    (hoperand : Operand tokens frames left n part x y) (hfuel : left ≤ fuel) (hrest : grammar.depth rest = n)
    (e : Expr) : Runs tokens frames left (.many (just (.word w)) part :: rest) (fun _ => 0) (fun _ => rest)
      (operatorLoop tokens w op x fuel e) (operatorLoop tokens w op y fuel e) := by
  induction fuel generalizing left e with
  | zero => exact runs_zero.fewer hfuel
  | succ fuel ih =>
    refine (runs_consumeWord hends (Grammar.splits_many hdepth rest)).bind fun found => ?_
    cases found with
    | true =>
      refine ((hoperand (.many (just (.word w)) part :: rest) hrest).fewer (Nat.sub_le _ _)).bind fun right => ?_
      refine ih (hoperand.fewer (by omega)) ?_ _
      simp only [Bool.toNat_true]
      omega
    | false => exact runs_pure _ rfl rfl

theorem runs_operators {w : String} {op : BinaryOp} (hdepth : grammar.depth part = 0)
    (hoperand : Operand tokens frames left n part x y) (hrest : grammar.depth rest = n) (e : Expr) :
    Runs tokens frames left (.many (just (.word w)) part :: rest) (fun _ => 0) (fun _ => rest)
      (operatorLoop tokens w op x tokens.length e) (operatorLoop tokens w op y tokens.length e) :=
  .of_min (runs_operatorLoop hends hdepth (hoperand.fewer (min_le_right _ _)) (min_le_left _ _) hrest e)

variable (hoperand : Operand tokens frames left n [.rule .primary] x y)
include hoperand

theorem runs_comparison : Operand tokens frames left n Phrase.comparison (comparison tokens x)
    (comparison tokens y) := by
  intro rest hrest
  refine (hoperand (.optional Phrase.isOperator [.rule .primary] :: rest) hrest).bind fun e =>
    runs_of_token fun offset token h hleft hs => .look (run_peek h) ?_
  have hafter : grammar.after (.optional Phrase.isOperator [.rule .primary] :: rest) token.kind =
      if (comparisonOp token.kind).isSome then some (.rule .primary :: rest) else grammar.after rest token.kind := by
    cases token.kind <;> rfl
  cases hop : comparisonOp token.kind with
  | none =>
    rw [hop] at hafter
    have hnext : Stands tokens offset rest := hs.congr (u := .eq) rfl (getElem?_kind h) hafter rfl
    exact runs_pure e rfl rfl offset (List.getElem?_eq_some_iff.1 h).1 hleft hnext
  | some op =>
    rw [hop] at hafter
    have hne : token.kind ≠ .done := fun hdone => by rw [hdone] at hop; cases hop
    refine (runsAt_admitted hends h hs hne hafter (Nat.zero_add _).le).bind hleft fun _ => ?_
    exact ((hoperand rest hrest).fewer (by omega)).bind fun right => runs_pure _ rfl rfl

theorem runs_and : Operand tokens frames left n Phrase.conjunction (and tokens x) (and tokens y) := by
  intro rest hrest
  have hcomparison := runs_comparison hends hoperand
  exact (hcomparison (.many (just (.word "AND")) Phrase.comparison :: rest) hrest).bind fun e =>
    runs_operators hends rfl (hcomparison.fewer (Nat.sub_le _ _)) hrest e

theorem runs_or : Operand tokens frames left n Phrase.disjunction (or tokens x) (or tokens y) := by
  intro rest hrest
  have hand := runs_and hends hoperand
  exact (hand (.many (just (.word "OR")) Phrase.conjunction :: rest) hrest).bind fun e =>
    runs_operators hends rfl (hand.fewer (Nat.sub_le _ _)) hrest e

end Operands

/-- One call of `primary`: the calls inside it have one more open parenthesis and one frame less. -/
theorem runs_primary_succ {n depth depth' : ℕ} (hframes : n + (depth + 1) = frames)
    (hinner : Operand tokens frames depth' (n + 1) [.rule .primary] (primary tokens depth) (primary tokens depth')) :
    Operand tokens frames (depth' + 1) n [.rule .primary] (primary tokens (depth + 1))
      (primary tokens (depth' + 1)) := by
  intro rest hrest
  refine runs_of_token fun offset token h hleft hs => ?_
  have hoffset : offset < tokens.length := (List.getElem?_eq_some_iff.1 h).1
  by_cases hparen : token.kind = .leftParen
  · have hconsume : (consumeSimple tokens .leftParen).run offset = (.ok true, offset + 1) := by
      rw [consumeSimple, Act.run_bind_ok (run_peek h), if_pos hparen]
      rfl
    have hnext : Stands tokens (offset + 1) (Phrase.disjunction ++ .rule .close :: rest) :=
      hs.succ (getElem?_kind h) (by rw [hparen]; rfl)
    have hclose : grammar.depth (.rule .close :: rest) = n + 1 := by
      rw [← hrest, Nat.add_comm]
      rfl
    have hlt : offset + 1 < tokens.length :=
      lt_of_ne_done hends h (by rw [hparen]; exact fun h => (nomatch h))
    have hbody : Runs tokens frames depth' (Phrase.disjunction ++ .rule .close :: rest) (fun _ => 1) (fun _ => rest)
        (or tokens (primary tokens depth) >>= fun e =>
          expectSimple tokens .rightParen "')'" >>= fun _ => pure e)
        (or tokens (primary tokens depth') >>= fun e =>
          expectSimple tokens .rightParen "')'" >>= fun _ => pure e) := by
      refine (runs_or hends hinner _ hclose).bind fun e => ?_
      exact (runs_expectSimple hends (by decide) (splits_close rest) _).bind fun _ => runs_pure e rfl rfl
    refine .step (Act.run_bind_ok hconsume) (Act.run_bind_ok hconsume) (hbody _ hlt (by omega) hnext) fun hdeep => ?_
    -- No frame is left for the operand behind the parenthesis.
    obtain ⟨s, hs', hdeep⟩ := hdeep
    obtain rfl : depth = 0 := by
      have hdepth : grammar.depth s = n + 1 := (hnext.depth_eq s hs').trans ((Nat.zero_add _).trans hclose)
      omega
    rfl
  · have hconsume : (consumeSimple tokens .leftParen).run offset = (.ok false, offset) := by
      rw [consumeSimple, Act.run_bind_ok (run_peek h), if_neg hparen]
      rfl
    have hoperand {first : TokenKind → Bool} (hfirst : first token.kind = true)
        (hafter : grammar.after (.rule .primary :: rest) token.kind = some rest) :
        Stands tokens offset (Phrase.token first :: rest) :=
      hs.congr hafter (getElem?_kind h) (hafter.trans (after_token hfirst rest).symm) (Nat.zero_add _)
    refine .look hconsume (.look (run_peek h) ?_)
    have hliteral (hfirst : Phrase.isLiteral token.kind = true)
        (hafter : grammar.after (.rule .primary :: rest) token.kind = some rest) :
        RunsAt tokens frames offset (fun _ => 1) (fun _ => rest)
          (literal tokens >>= fun v => pure (Expr.literal v)) (literal tokens >>= fun v => pure (Expr.literal v)) :=
      (runs_literal hends offset hoffset hleft (hoperand hfirst hafter)).bind hleft fun v => runs_pure _ rfl rfl
    cases hkind : token.kind with
    | integer value => exact hliteral (by rw [hkind]; rfl) (by rw [hkind]; rfl)
    | string value => exact hliteral (by rw [hkind]; rfl) (by rw [hkind]; rfl)
    | leftParen => exact absurd hkind hparen
    | word w =>
      have hafter : grammar.after (.rule .primary :: rest) token.kind = some rest := by rw [hkind]; rfl
      dsimp only
      split_ifs with hw
      · exact hliteral (by rw [hkind]; exact decide_eq_true (by simpa using hw)) hafter
      · exact (runs_word hends offset hoffset hleft (hoperand (by rw [hkind]; rfl) hafter)).bind hleft
          fun name => runs_pure _ rfl rfl
    | _ =>
      have hrefused : Stands tokens offset (.choice [] :: rest) :=
        hs.refuse (getElem?_kind h) (by rw [hkind]; rfl) (Nat.zero_add _)
      exact runs_expected _ offset hoffset hleft hrefused

/-- **Parentheses**: `primary` is called where fewer than `frames` of them are open, and needs no more frames
    than there are tokens. -/
theorem runs_primary {n depth : ℕ} (hframes : n + depth = frames) :
    Operand tokens frames left n [.rule .primary] (primary tokens depth) (primary tokens left) := by
  induction left generalizing depth n frames with
  | zero => exact fun _ _ => runs_zero
  | succ left ih =>
    cases depth with
    | succ depth => exact runs_primary_succ hends hframes (ih (by omega))
    | zero =>
      intro rest hrest offset hoffset hleft hs
      have hframe : n + (0 + 1) = n + 1 := rfl
      have hcall := runs_primary_succ hends hframe (ih rfl) rest hrest offset hoffset hleft hs
      have hfull : frames ≤ grammar.depth (.rule .primary :: rest) := by
        rw [← hframes, ← hrest]
        exact (Nat.zero_add _).ge
      have hdeep : Deep tokens frames offset := hs.deep (t := .leftParen) rfl hfull
      exact hcall.full hdeep

/-! ## Statements -/

theorem runs_columnDef (rest : List Phrase) : Runs tokens frames left (Phrase.column ++ rest) (fun _ => 1)
    (fun _ => rest) (columnDef tokens) (columnDef tokens) := by
  refine (runs_word hends).bind fun name => ?_
  refine ((runs_typeWord hends).weaken fun _ => Nat.zero_le _).bind fun typeName => ?_
  refine (runs_namedType typeName).bind fun dataType => ?_
  refine (runs_consumeWord hends (Grammar.splits_optional rfl rest)).bind fun found => ?_
  cases found with
  | true => exact ((runs_expectWord hends _).weaken fun _ => Nat.zero_le _).bind fun _ => runs_pure _ rfl rfl
  | false => exact runs_pure _ rfl rfl

theorem runs_createTable : Runs tokens frames left
    (Phrase.name :: Phrase.symbol .leftParen :: (Phrase.column ++ Phrase.more Phrase.column ::
      Phrase.symbol .rightParen :: rest)) (fun _ => 0) (fun _ => rest) (createTable tokens) (createTable tokens) := by
  refine (runs_word hends).bind fun table => (runs_symbol hends (by decide) _).bind fun _ => ?_
  refine (runs_commaSeparated hends rfl (fun _ => runs_columnDef hends) _).anywhere.bind fun columns => ?_
  exact (runs_symbol hends (by decide) _).bind fun _ => runs_pure _ rfl rfl

theorem runs_insert : Runs tokens frames left
    (Phrase.name :: Phrase.symbol .leftParen :: Phrase.name :: Phrase.more [Phrase.name] ::
      Phrase.symbol .rightParen :: Phrase.keyword "VALUES" :: Phrase.symbol .leftParen :: Phrase.token Phrase.isLiteral ::
      Phrase.more [Phrase.token Phrase.isLiteral] :: Phrase.symbol .rightParen :: rest)
    (fun _ => 0) (fun _ => rest) (insert tokens) (insert tokens) := by
  have hvalue : ∀ left rest, Runs tokens frames left ([Phrase.token Phrase.isLiteral] ++ rest) (fun _ => 1)
      (fun _ => rest) (literal tokens) (literal tokens) := fun _ _ => runs_literal hends
  refine (runs_word hends).bind fun table => (runs_symbol hends (by decide) _).bind fun _ => ?_
  refine (runs_identifiersUntil hends (fun left => (runs_consumeSimple hends (by decide)
    (splits_more (by decide) _)).weaken fun _ => Nat.zero_le _) _).anywhere.bind fun columns => ?_
  refine (runs_expectWord hends _).bind fun _ => (runs_symbol hends (by decide) _).bind fun _ => ?_
  refine (runs_commaSeparated hends rfl hvalue _).anywhere.bind fun values => ?_
  exact (runs_symbol hends (by decide) _).bind fun _ => runs_pure _ rfl rfl

theorem runs_orderBy : Runs tokens frames left (Phrase.orderBy :: rest) (fun _ => 0) (fun _ => rest)
    (orderBy tokens) (orderBy tokens) := by
  refine (runs_consumeWord hends (Grammar.splits_optional rfl rest)).bind fun found => ?_
  cases found with
  | true =>
    refine (runs_expectWord hends _).bind fun _ => (runs_word hends).bind fun column => ?_
    refine (runs_consumeWord hends (splits_direction rest)).bind fun descending => ?_
    cases descending with
    | true => exact runs_pure _ rfl rfl
    | false =>
      refine (runs_consumeWord hends (Grammar.splits_optional rfl rest)).bind fun ascending => ?_
      cases ascending <;> exact runs_pure _ (Nat.zero_sub _) rfl
  | false => exact runs_pure _ rfl rfl

theorem runs_limit : Runs tokens frames left (Phrase.limit :: rest) (fun _ => 0) (fun _ => rest)
    (limit tokens) (limit tokens) := by
  refine (runs_consumeWord hends (Grammar.splits_optional rfl rest)).bind fun found => ?_
  cases found with
  | true =>
    refine (runs_advance hends rfl).bind fun token => ?_
    cases hkind : token.kind with
    | integer value =>
      change Runs _ _ _ _ _ _ (if 0 ≤ value.val then _ else _) (if 0 ≤ value.val then _ else _)
      by_cases hvalue : 0 ≤ value.val
      · rw [if_pos hvalue, show Phrase.isNumber (.integer value) = true from decide_eq_true hvalue]
        exact runs_pure _ (Nat.zero_sub _) rfl
      · rw [if_neg hvalue, show Phrase.isNumber (.integer value) = false from decide_eq_false hvalue]
        exact runs_error _ _
    | _ => exact runs_error _ _
  | false => exact runs_pure _ rfl rfl

theorem runs_projection : Runs tokens frames left (Phrase.projection :: Phrase.keyword "FROM" :: rest) (fun _ => 0)
    (fun _ => Phrase.keyword "FROM" :: rest) (projection tokens) (projection tokens) := by
  refine (runs_consumeSimple hends (by decide) (Grammar.splits_choice rfl _ _)).bind fun found => ?_
  cases found with
  | true => exact runs_pure _ rfl rfl
  | false =>
    have hword : TokenKind.word "FROM" ≠ .comma := fun h => (nomatch h)
    have hnames : Runs tokens frames tokens.length
        (Phrase.name :: Phrase.more [Phrase.name] :: Phrase.keyword "FROM" :: rest) (fun _ => 1)
        (fun _ => Phrase.keyword "FROM" :: rest) (identifierListUntilWord tokens "FROM")
        (identifierListUntilWord tokens "FROM") :=
      runs_identifiersUntil hends
        (fun left => runs_checkWord (Phrase.keyword "FROM" :: rest) (splits_more hword rest) rfl rfl) _
    refine Runs.bind (k := fun _ => 1) (m := fun _ => Phrase.keyword "FROM" :: rest) ?_
      fun names => runs_pure _ rfl rfl
    exact hnames.anywhere.of_stack (t := .word "") rfl (fun kind => by cases kind <;> rfl) rfl

theorem runs_assignment (rest : List Phrase) : Runs tokens frames left (Phrase.assignment ++ rest) (fun _ => 1)
    (fun _ => rest) (assignment tokens) (assignment tokens) := by
  refine (runs_word hends).bind fun column => (runs_symbol hends (by decide) _).bind fun _ => ?_
  exact (runs_literal hends).bind fun value => runs_pure _ rfl rfl

section Statements
variable (hrest : grammar.depth rest = 0)
include hrest

theorem runs_filter : Runs tokens frames left (Phrase.filter :: rest) (fun _ => 0) (fun _ => rest)
    (filter tokens frames) (filter tokens tokens.length) := by
  refine (runs_consumeWord hends (Grammar.splits_optional rfl rest)).bind fun found => ?_
  cases found with
  | true =>
    have hexpr : Runs tokens frames tokens.length (Phrase.disjunction ++ rest) (fun _ => 1) (fun _ => rest)
        (expr tokens frames) (expr tokens tokens.length) :=
      runs_or hends (runs_primary hends (Nat.zero_add frames)) rest hrest
    exact (hexpr.anywhere.weaken fun _ => Nat.zero_le _).bind fun e => runs_pure _ rfl rfl
  | false => exact runs_pure _ rfl rfl

theorem runs_selectAfterKeyword : Runs tokens frames left (Phrase.select ++ rest) (fun _ => 0) (fun _ => rest)
    (selectAfterKeyword tokens frames) (selectAfterKeyword tokens tokens.length) := by
  have hafter : grammar.depth (Phrase.orderBy :: Phrase.limit :: rest) = 0 := hrest
  refine (runs_projection hends).bind fun projection => (runs_expectWord hends _).bind fun _ => ?_
  refine (runs_word hends).bind fun table => (runs_filter hends hafter).bind fun filter => ?_
  refine (runs_orderBy hends).bind fun orderBy => (runs_limit hends).bind fun limit => ?_
  exact runs_pure _ rfl rfl

theorem runs_update : Runs tokens frames left
    (Phrase.name :: Phrase.keyword "SET" ::
      (Phrase.assignment ++ Phrase.more Phrase.assignment :: Phrase.filter :: rest)) (fun _ => 0) (fun _ => rest)
    (update tokens frames) (update tokens tokens.length) := by
  refine (runs_word hends).bind fun table => (runs_expectWord hends _).bind fun _ => ?_
  refine (runs_commaSeparated hends rfl (fun _ => runs_assignment hends) _).anywhere.bind fun assignments => ?_
  exact (runs_filter hends hrest).bind fun filter => runs_pure _ rfl rfl

theorem runs_delete : Runs tokens frames left (Phrase.name :: Phrase.filter :: rest) (fun _ => 0) (fun _ => rest)
    (delete tokens frames) (delete tokens tokens.length) :=
  (runs_word hends).bind fun _ => (runs_filter hends hrest).bind fun _ => runs_pure _ rfl rfl

end Statements

/-- A statement after its first word, or else another one. -/
theorem runs_keyword {w : String} {body : List Phrase} {alternatives : List ((TokenKind → Bool) × List Phrase)}
    {x y x' y' : Act ℕ α} (hbody : grammar.depth body = 0)
    (hx : ∀ left, Runs tokens frames left (body ++ [Phrase.separator]) (fun _ => 0) (fun _ => [Phrase.separator]) x y)
    (hx' : Runs tokens frames left [.choice alternatives] (fun _ => 1) (fun _ => [Phrase.separator]) x' y') :
    Runs tokens frames left [.choice (Phrase.statement w body :: alternatives)] (fun _ => 1)
      (fun _ => [Phrase.separator])
      (consumeWord tokens w >>= fun found => if found = true then x else x')
      (consumeWord tokens w >>= fun found => if found = true then y else y') := by
  have hdepth : grammar.depth (body ++ [Phrase.separator]) = 0 := by
    rw [Grammar.depth_append, hbody]
    rfl
  refine (runs_consumeWord hends (Grammar.splits_choice hdepth alternatives [])).bind fun found => ?_
  cases found with
  | true =>
    rw [List.append_nil]
    exact hx _
  | false => exact hx'

theorem runs_statement : Runs tokens frames left [.choice Phrase.statements] (fun _ => 1)
    (fun _ => [Phrase.separator]) (statement tokens frames) (statement tokens tokens.length) := by
  have hselect : ∀ (f : Select → Statement) left, Runs tokens frames left (Phrase.select ++ [Phrase.separator])
      (fun _ => 0) (fun _ => [Phrase.separator])
      (selectAfterKeyword tokens frames >>= fun select => pure (f select))
      (selectAfterKeyword tokens tokens.length >>= fun select => pure (f select)) :=
    fun f left => (runs_selectAfterKeyword hends rfl).bind fun select => runs_pure _ rfl rfl
  refine runs_keyword hends rfl (fun left => (runs_expectWord hends _).bind fun _ => ?_) ?_
  · exact (runs_createTable hends).weaken fun _ => le_of_eq (Nat.zero_sub _)
  refine runs_keyword hends rfl (fun left => (runs_expectWord hends _).bind fun _ => ?_) ?_
  · exact (runs_insert hends).weaken fun _ => le_of_eq (Nat.zero_sub _)
  refine runs_keyword hends rfl (hselect _) ?_
  refine runs_keyword hends rfl (fun left => runs_update hends rfl) ?_
  refine runs_keyword hends rfl (fun left => (runs_expectWord hends _).bind fun _ => ?_) ?_
  · exact (runs_delete hends rfl).weaken fun _ => le_of_eq (Nat.zero_sub _)
  refine runs_keyword hends rfl (fun left => runs_pure _ rfl rfl) ?_
  refine runs_keyword hends rfl (fun left => runs_pure _ rfl rfl) ?_
  refine runs_keyword hends rfl (fun left => runs_pure _ rfl rfl) ?_
  refine runs_keyword hends rfl (fun left => (runs_expectWord hends _).bind fun _ => ?_) (runs_expected _)
  exact (hselect _ _).weaken fun _ => le_of_eq (Nat.zero_sub _)

/-- **The loop of `parse`**: each turn but the last consumes a token. -/
theorem runs_statements (fuel : ℕ) : Runs tokens frames fuel [.rule .script] (fun _ => 0) (fun _ => [.rule .script])
    (statements tokens frames fuel) (statements tokens tokens.length fuel) := by
  induction fuel with
  | zero => exact runs_zero
  | succ fuel ih =>
    have hmore : ∀ first, Runs tokens frames fuel [.rule .script] (fun _ => 0) (fun _ => [.rule .script])
        (statements tokens frames fuel >>= fun rest => pure (first :: rest))
        (statements tokens tokens.length fuel >>= fun rest => pure (first :: rest)) :=
      fun first => ih.bind fun rest => runs_pure _ rfl rfl
    refine (runs_atEnd [.rule .script] splits_script rfl rfl).bind fun atEnd => ?_
    cases atEnd with
    | true => exact runs_pure _ rfl rfl
    | false =>
      refine (runs_consumeSimple hends (by decide) (Grammar.splits_choice rfl _ [])).bind fun semicolon => ?_
      cases semicolon with
      | true => exact ih
      | false =>
        refine (runs_statement hends).bind fun first =>
          (runs_consumeSimple hends (by decide) (Grammar.splits_choice rfl _ [])).bind fun semicolon => ?_
        cases semicolon with
        | true => exact (hmore first).fewer (Nat.sub_le _ _)
        | false =>
          refine (runs_atEnd [.rule .script] (Grammar.splits_choice rfl _ []) rfl rfl).bind fun atEnd => ?_
          cases atEnd with
          | true => exact hmore first
          | false => exact runs_expected _

end Tokens

section Done
variable {tokens : List Token} {frames offset offset' : ℕ}

theorem atEnd_true (h : (atEnd tokens).run offset = (.ok true, offset')) :
    ∃ token, tokens[offset']? = some token ∧ token.kind = .done := by
  obtain ⟨token, offset₁, hpeek, h⟩ := Act.run_bind_eq_ok.1 h
  obtain ⟨hget, hoffset⟩ := Prod.mk.inj hpeek
  obtain ⟨hkind, hoffset'⟩ := Prod.mk.inj h
  refine ⟨token, ?_, beq_iff_eq.1 (Except.ok.inj hkind)⟩
  rw [← hoffset', ← hoffset]
  exact Res.get_eq_ok.1 hget

/-- **The loop of `parse` stops only at the `End`.** -/
theorem statements_done {fuel : ℕ} {l : List Statement}
    (h : (statements tokens frames fuel).run offset = (.ok l, offset')) :
    ∃ token, tokens[offset']? = some token ∧ token.kind = .done := by
  induction fuel generalizing offset l with
  | zero => cases h
  | succ fuel ih =>
    have hmore : ∀ {offset : ℕ} {first : Statement} {l : List Statement},
        (statements tokens frames fuel >>= fun rest => pure (first :: rest)).run offset = (.ok l, offset') →
          ∃ token, tokens[offset']? = some token ∧ token.kind = .done := by
      intro offset first l h
      obtain ⟨rest, offset₁, hrest, h⟩ := Act.run_bind_eq_ok.1 h
      cases h
      exact ih hrest
    obtain ⟨atEnd, offset₁, hend, h⟩ := Act.run_bind_eq_ok.1 h
    cases atEnd with
    | true =>
      cases h
      exact atEnd_true hend
    | false =>
      obtain ⟨semicolon, offset₂, -, h⟩ := Act.run_bind_eq_ok.1 h
      cases semicolon with
      | true => exact ih h
      | false =>
        obtain ⟨first, offset₃, -, h⟩ := Act.run_bind_eq_ok.1 h
        obtain ⟨semicolon, offset₄, -, h⟩ := Act.run_bind_eq_ok.1 h
        cases semicolon with
        | true => exact hmore h
        | false =>
          obtain ⟨atEnd, offset₅, -, h⟩ := Act.run_bind_eq_ok.1 h
          cases atEnd with
          | true => exact hmore h
          | false =>
            obtain ⟨token, offset₆, -, h⟩ := Act.run_bind_eq_ok.1 h
            cases h

end Done

end Parser

end NutDb.Sql
