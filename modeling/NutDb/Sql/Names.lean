/-
  The names in parsed statements.

  A word of the lexer has only letters in upper case, digits and underscores, and
  the parser takes all names of tables and columns from words.  So the names of
  a table that is created hold none of the separators of the catalog.
-/
import NutDb.Sql.Parser
import NutDb.Catalog

namespace NutDb.Sql

open Lib Act

/-! ## Words -/

theorem toNat_of_isWordByte {byte : UInt8} (h : isWordByte byte = true) : byte.toNat < 128 := by
  have hall : ∀ n < 256, isWordByte (UInt8.ofNat n) = true → (UInt8.ofNat n).toNat < 128 := by
    decide +kernel
  exact Server.forall_byte (p := fun byte => isWordByte byte = true → byte.toNat < 128) hall byte h

theorem isNameChar_toUpper {byte : UInt8} (h : isWordByte byte = true) :
    isNameChar (Char.ofNat byte.toNat).toUpper = true := by
  have hall : ∀ n < 256, isWordByte (UInt8.ofNat n) = true →
      isNameChar (Char.ofNat (UInt8.ofNat n).toNat).toUpper = true := by decide +kernel
  exact Server.forall_byte (p := fun byte => isWordByte byte = true →
    isNameChar (Char.ofNat byte.toNat).toUpper = true) hall byte h

/-- The text of a word. -/
theorem slice_word {bytes : Bytes} (h : ∀ b ∈ bytes, isWordByte b = true) :
    slice bytes = .ok (String.ofList (bytes.map fun b => Char.ofNat b.toNat)) := by
  rw [slice, ofUtf8_ascii fun b hb => toNat_of_isWordByte (h b hb)]

theorem not_isDigit_toUpper {byte : UInt8} (h : (isAsciiAlphabetic byte || byte == 0x5F) = true) :
    (Char.ofNat byte.toNat).toUpper.isDigit = false := by
  have hall : ∀ n < 256, (isAsciiAlphabetic (UInt8.ofNat n) || UInt8.ofNat n == 0x5F) = true →
      (Char.ofNat (UInt8.ofNat n).toNat).toUpper.isDigit = false := by decide +kernel
  exact Server.forall_byte (p := fun byte => (isAsciiAlphabetic byte || byte == 0x5F) = true →
    (Char.ofNat byte.toNat).toUpper.isDigit = false) hall byte h

theorem isName_toAsciiUppercase {byte : UInt8} {rest : Bytes}
    (hfirst : (isAsciiAlphabetic byte || byte == 0x5F) = true)
    (h : ∀ b ∈ byte :: rest, isWordByte b = true) :
    IsName (toAsciiUppercase (String.ofList ((byte :: rest).map fun b => Char.ofNat b.toNat))) := by
  constructor
  · refine ⟨_, _, by rw [toAsciiUppercase, String.toList_ofList, String.toList_ofList]; rfl, ?_⟩
    exact not_isDigit_toUpper hfirst
  · intro c hc
    simp only [toAsciiUppercase, String.toList_ofList, List.map_map, List.mem_map,
      Function.comp_apply] at hc
    obtain ⟨b, hb, rfl⟩ := hc
    exact isNameChar_toUpper (h b hb)

/-- A token that is a name if it is a word. -/
def TokenKind.Named (kind : TokenKind) : Prop := ∀ w, kind = .word w → IsName w

theorem mem_of_lookup_byte {byte : UInt8} {kind : TokenKind} {table : List (UInt8 × TokenKind)}
    (h : table.lookup byte = some kind) : (byte, kind) ∈ table := by
  obtain ⟨l₁, l₂, rfl, -⟩ := List.lookup_eq_some_iff.1 h
  simp

/-- What `punctuation` finds is in its tables, and it takes one byte or an `=` too. -/
theorem mem_of_punctuation {byte : UInt8} {rest rest' : Bytes} {kind : TokenKind}
    (h : punctuation byte rest = some (kind, rest')) :
    (byte, kind) ∈ SINGLE ++ WITH_EQ ++ ANGLE ∧ (rest' = rest ∨ rest = 0x3D :: rest') := by
  unfold punctuation at h
  split at h
  · rename_i hk
    cases h
    exact ⟨by simp [List.mem_append, mem_of_lookup_byte hk], Or.inl rfl⟩
  · split at h
    · rename_i hk
      cases h
      split_ifs at hk with hhead
      obtain ⟨tail, rfl⟩ := List.head?_eq_some_iff.1 hhead
      exact ⟨by simp [List.mem_append, mem_of_lookup_byte hk], Or.inr rfl⟩
    · obtain ⟨k, hk, h⟩ := Option.map_eq_some_iff.1 h
      cases h
      exact ⟨by simp [List.mem_append, mem_of_lookup_byte hk], Or.inl rfl⟩

theorem lexInteger_kind {pos : ℕ} {sign bytes rest' : Bytes} {kind : TokenKind}
    (h : lexInteger pos sign bytes = .ok (kind, rest')) :
    (∃ value, kind = .integer value) ∧ rest' = bytes.dropWhile isAsciiDigit := by
  obtain ⟨text, -, h⟩ := Res.bind_eq_ok.1 h
  cases hp : I64.parse text with
  | none =>
    rw [hp] at h
    cases h
  | some value =>
    rw [hp] at h
    cases h
    exact ⟨⟨value, rfl⟩, rfl⟩

/-- **The tokens of the lexer**: its words are names. -/
theorem lexToken_kind {pos : ℕ} {byte : UInt8} {rest rest' : Bytes} {kind : TokenKind}
    (h : lexToken pos byte rest = .ok (kind, rest')) : (byte, kind) ∈ SINGLE ++ WITH_EQ ++ ANGLE ∨
      (∃ value, kind = .integer value) ∨ (∃ value, kind = .string value) ∨ ∃ w, kind = .word w ∧ IsName w := by
  unfold lexToken at h
  split at h
  · rename_i token htoken
    cases h
    exact Or.inl (mem_of_punctuation htoken).1
  · split_ifs at h with h1 h2 h3 h4 h5
    · obtain ⟨⟨value, rest''⟩, -, h⟩ := Res.bind_eq_ok.1 h
      cases h
      exact Or.inr (Or.inr (Or.inl ⟨value, rfl⟩))
    · exact Or.inr (Or.inl (lexInteger_kind h).1)
    · cases h
    · exact Or.inr (Or.inl (lexInteger_kind h).1)
    · have hword : ∀ b ∈ byte :: rest.takeWhile isWordByte, isWordByte b = true := by
        intro b hb
        rcases List.mem_cons.1 hb with rfl | hb
        · rw [isWordByte]
          simp only [Bool.or_eq_true] at h5 ⊢
          tauto
        · exact List.mem_takeWhile_imp hb
      rw [slice_word hword, Res.ok_bind] at h
      cases h
      exact Or.inr (Or.inr (Or.inr ⟨_, rfl, isName_toAsciiUppercase h5 hword⟩))
    · cases h

theorem lexToken_named {pos : ℕ} {byte : UInt8} {rest rest' : Bytes} {kind : TokenKind}
    (h : lexToken pos byte rest = .ok (kind, rest')) : kind.Named := by
  intro w hw
  obtain hmem | ⟨value, hvalue⟩ | ⟨value, hvalue⟩ | ⟨w', hw', hname⟩ := lexToken_kind h
  · rw [hw] at hmem
    simp [SINGLE, WITH_EQ, ANGLE] at hmem
  · cases hw.symm.trans hvalue
  · cases hw.symm.trans hvalue
  · cases hw.symm.trans hw'
    exact hname

theorem lexFrom_named {fuel pos : ℕ} {bytes : Bytes} {tokens : List Token}
    (h : lexFrom fuel pos bytes = .ok tokens) : ∀ token ∈ tokens, token.kind.Named := by
  induction fuel generalizing pos bytes tokens with
  | zero =>
    cases bytes with
    | nil =>
      cases h
      intro token htoken w hw
      rw [List.mem_singleton.1 htoken] at hw
      cases hw
    | cons byte rest => cases h
  | succ fuel ih =>
    cases bytes with
    | nil =>
      cases h
      intro token htoken w hw
      rw [List.mem_singleton.1 htoken] at hw
      cases hw
    | cons byte rest =>
      rw [lexFrom] at h
      split_ifs at h
      · exact ih h
      · obtain ⟨⟨kind, rest'⟩, hkind, h⟩ := Res.bind_eq_ok.1 h
        obtain ⟨more, hmore, h⟩ := Res.bind_eq_ok.1 h
        cases h
        intro token htoken
        rcases List.mem_cons.1 htoken with rfl | htoken
        · exact lexToken_named hkind
        · exact ih hmore token htoken

/-- An identifier that the lexer can produce. -/
def Lexed (name : String) : Prop :=
  ∃ source tokens, lex source = .ok tokens ∧ ∃ token ∈ tokens, token.kind = .word name

theorem Lexed.isName {name : String} (h : Lexed name) : IsName name := by
  obtain ⟨source, tokens, hlex, token, htoken, hkind⟩ := h
  exact lexFrom_named hlex token htoken name hkind

/-- **Rows and schemas are encoded exactly**, if a row has at least one column. -/
theorem row_codec_exact : (∀ schema row, schema.columns ≠ [] → Matches schema row →
      decodeRow (encodeRow row) schema = .ok row) ∧
    (∀ encoded schema row, decodeRow encoded schema = .ok row → encodeRow row = encoded) ∧
    ∀ schema : Schema, (∀ column ∈ schema.columns, Lexed column.name) → schema.validate = .ok () →
      decodeSchema schema.name (encodeSchema schema) = .ok schema := by
  refine ⟨fun schema row hne hrow => decodeRow_encodeRow hrow hne,
    fun encoded schema row => encodeRow_of_decodeRow, fun schema hcolumns hvalidated => ?_⟩
  exact decodeSchema_of_columns hvalidated fun column hcolumn => (hcolumns column hcolumn).isName

theorem row_codec_exact_row :
    decodeRow (encodeRow [.integer ⟨-1, by decide⟩, .text "é:"]) ⟨"T", [⟨"ID", .integer, true⟩, ⟨"NAME", .text, false⟩]⟩ =
      .ok [.integer ⟨-1, by decide⟩, .text "é:"] ∧
    decodeSchema "T" (encodeSchema ⟨"T", [⟨"ID", .integer, true⟩]⟩) = .ok ⟨"T", [⟨"ID", .integer, true⟩]⟩ := by
  have hlexed : Lexed "ID" := ⟨"id", [⟨.word "ID", 0⟩, ⟨.done, 2⟩], by decide +kernel, _, List.mem_cons_self, rfl⟩
  refine ⟨row_codec_exact.1 _ _ (by simp) ?_, row_codec_exact.2.2 _ ?_ (by decide +kernel)⟩
  · exact .cons rfl (.cons rfl .nil)
  · exact List.forall_mem_singleton.2 hlexed

/-- A row without columns is written as a row with one empty value. -/
theorem not_row_codec_exact_empty :
    Matches ⟨"T", []⟩ [] ∧ decodeRow (encodeRow []) ⟨"T", []⟩ ≠ .ok [] :=
  ⟨.nil, by decide +kernel⟩

/-! ## Statements -/

/-- The names that a statement creates are names. -/
def Statement.Named : Statement → Prop
  | .createTable table columns => IsName table ∧ ∀ column ∈ columns, IsName column.name
  | _ => True

namespace Parser

section
variable {tokens : List Token} (h : ∀ token ∈ tokens, token.kind.Named)
include h

theorem peek_named : Returns (peek tokens) fun token => token.kind.Named := by
  intro s token s' hrun
  have hget : Res.get tokens s = .ok token := (Prod.mk.inj hrun).1
  exact h token (List.mem_of_getElem? (Res.get_eq_ok.1 hget))

theorem advance_named : Returns (advance tokens) fun token => token.kind.Named := by
  refine returns_bind (peek_named h) fun token htoken => returns_then fun atEnd => ?_
  exact returns_ite (returns_pure htoken) (returns_then fun _ => returns_pure htoken)

theorem word_named : Returns (word tokens) IsName := by
  refine returns_bind (advance_named h) fun token htoken => ?_
  cases hk : token.kind with
  | word w => exact returns_pure (htoken w hk)
  | _ => exact returns_lift fun a ha => (nomatch ha)

theorem columnDef_named : Returns (columnDef tokens) fun column => IsName column.name := by
  refine returns_bind (word_named h) fun name hname => returns_then fun typeName => ?_
  refine returns_then fun dataType => returns_then fun primary => ?_
  exact returns_ite (returns_then fun _ => returns_pure hname) (returns_pure hname)

theorem createTable_named : Returns (createTable tokens) Statement.Named := by
  refine returns_bind (word_named h) fun table htable => returns_then fun _ => ?_
  have hcolumns : ∀ fuel, Returns (commaSeparated tokens (columnDef tokens) fuel)
      fun columns => ∀ column ∈ columns, IsName column.name := by
    intro fuel
    induction fuel with
    | zero => exact returns_lift fun a ha => (nomatch ha)
    | succ fuel ih =>
      refine returns_bind (columnDef_named h) fun column hcolumn => returns_then fun comma => ?_
      refine returns_ite (returns_bind ih fun columns hcolumns => returns_pure ?_) (returns_pure ?_)
      · exact List.forall_mem_cons.2 ⟨hcolumn, hcolumns⟩
      · exact List.forall_mem_singleton.2 hcolumn
  exact returns_bind (hcolumns _) fun columns hcols => returns_then fun _ => returns_pure ⟨htable, hcols⟩

theorem statement_named (frames : ℕ) : Returns (statement tokens frames) Statement.Named := by
  have hother : ∀ {x : Act ℕ Select}, Returns (x >>= fun select => pure (.select select)) Statement.Named :=
    returns_then fun _ => returns_pure trivial
  refine returns_then fun create => returns_ite (returns_then fun _ => createTable_named h) ?_
  refine returns_then fun insert => returns_ite (returns_then fun _ => ?_) ?_
  · refine returns_then fun table => returns_then fun _ => returns_then fun columns => ?_
    refine returns_then fun _ => returns_then fun _ => returns_then fun values => returns_then fun _ => ?_
    exact returns_pure trivial
  refine returns_then fun select => returns_ite hother ?_
  refine returns_then fun update => returns_ite ?_ ?_
  · refine returns_then fun table => returns_then fun _ => returns_then fun assignments => ?_
    exact returns_then fun filter => returns_pure trivial
  refine returns_then fun delete => returns_ite (returns_then fun _ => ?_) ?_
  · exact returns_then fun table => returns_then fun filter => returns_pure trivial
  refine returns_then fun begin => returns_ite (returns_pure trivial) ?_
  refine returns_then fun commit => returns_ite (returns_pure trivial) ?_
  refine returns_then fun rollback => returns_ite (returns_pure trivial) ?_
  refine returns_then fun explain => returns_ite (returns_then fun _ => ?_) ?_
  · exact returns_then fun select => returns_pure trivial
  · exact returns_then fun token => returns_lift fun a ha => (nomatch ha)

theorem statements_named (frames fuel : ℕ) :
    Returns (statements tokens frames fuel) fun statements => ∀ statement ∈ statements, statement.Named := by
  induction fuel with
  | zero => exact returns_lift fun a ha => (nomatch ha)
  | succ fuel ih =>
    refine returns_then fun atEnd => returns_ite (returns_pure (by simp)) ?_
    refine returns_then fun semicolon => returns_ite ih ?_
    refine returns_bind (statement_named h frames) fun first hfirst => returns_then fun semicolon => ?_
    have hrest : Returns (statements tokens frames fuel >>= fun rest => pure (first :: rest))
        fun statements => ∀ statement ∈ statements, statement.Named :=
      returns_bind ih fun rest hrest => returns_pure (List.forall_mem_cons.2 ⟨hfirst, hrest⟩)
    refine returns_ite hrest (returns_then fun atEnd => returns_ite hrest ?_)
    exact returns_then fun token => returns_lift fun a ha => (nomatch ha)

end

end Parser

/-- **The names in parsed statements** are names. -/
theorem parse_named {source : String} {statements : List Statement} (h : parse source = .ok statements) :
    ∀ statement ∈ statements, statement.Named := by
  obtain ⟨tokens, htokens, h⟩ := Res.bind_eq_ok.1 h
  obtain ⟨parsed, hparsed, h⟩ := Res.bind_eq_ok.1 h
  split_ifs at h
  · cases h
  · obtain rfl : parsed = statements := Except.ok.inj h
    exact Parser.statements_named (lexFrom_named htokens) _ _ 0 parsed _ (Act.run_eq_of_fst hparsed)

end NutDb.Sql
