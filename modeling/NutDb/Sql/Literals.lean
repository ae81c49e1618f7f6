/-
  Literals in the text of statements.

  Statements are written with their names as they are, integers in decimal,
  strings in quotes, and the other values as words.  The lexer reads back the
  tokens that were written (`lexes_insertText`, `lexes_selectText`).
-/
import NutDb.Sql.Names

namespace NutDb.Sql

open Lib

/-! ## Written values -/

/-- Characters with their quotes doubled. -/
def escaped (cs : List Char) : List Char := cs.flatMap fun c => if c = '\'' then ['\'', '\''] else [c]

/-- A string in quotes, with its quotes doubled. -/
def quoted (s : String) : String := "'" ++ String.ofList (escaped s.toList) ++ "'"

/-- The text of a value. -/
def Value.written : Value → String
  | .null => "NULL"
  | .integer value => value.print
  | .text value => quoted value
  | .boolean true => "TRUE"
  | .boolean false => "FALSE"

/-- The token of a value. -/
def Value.token : Value → TokenKind
  | .null => .word "NULL"
  | .integer value => .integer value
  | .text value => .string value
  | .boolean true => .word "TRUE"
  | .boolean false => .word "FALSE"

/-- The `INSERT` of a row. -/
def insertText (schema : Schema) (row : Row) : String :=
  "INSERT INTO " ++ schema.name ++ " (" ++ ", ".intercalate (schema.columns.map ColumnDef.name) ++
    ") VALUES (" ++ ", ".intercalate (row.map Value.written) ++ ")"

/-- The `SELECT` of the row with a primary value. -/
def selectText (schema : Schema) (column : ColumnDef) (primary : Value) : String :=
  "SELECT * FROM " ++ schema.name ++ " WHERE " ++ column.name ++ " = " ++ primary.written

/-! ## Tokens -/

/-- The text is taken apart into tokens of these kinds. -/
def Lexes (s : String) (kinds : List TokenKind) : Prop := ∀ fuel pos, (utf8 s).length ≤ fuel →
  ∃ tokens, lexFrom fuel pos (utf8 s) = .ok tokens ∧ tokens.map Token.kind = kinds ++ [.done]

/-- The text begins with something that ends every token. -/
def Delimited (t : String) : Prop := ∀ b, (utf8 t).head? = some b → b = 0x20 ∨ b = 0x2C ∨ b = 0x29

/-- The text is one token, before a text that ends it. -/
def LexesAs (s : String) (kind : TokenKind) : Prop := ∀ t kinds, Delimited t → Lexes t kinds →
  Lexes (s ++ t) (kind :: kinds)

section Lex
variable {s t : String} {kinds : List TokenKind} {kind : TokenKind} {byte : UInt8}

theorem lexes_empty : Lexes "" [] := by
  intro fuel pos _
  refine ⟨[⟨.done, pos⟩], ?_, rfl⟩
  cases fuel <;> rfl

theorem lexes_space (h : Lexes t kinds) : Lexes (" " ++ t) kinds := by
  intro fuel pos hfuel
  have hbytes : utf8 (" " ++ t) = 0x20 :: utf8 t := by rw [utf8_append]; rfl
  rw [hbytes] at hfuel ⊢
  cases fuel with
  | zero => cases hfuel
  | succ fuel =>
    rw [lexFrom, if_pos (by decide)]
    exact h fuel (pos + 1) (Nat.le_of_succ_le_succ hfuel)

/-- One token in front of a text. -/
theorem lexes_cons {tail : Bytes} (hs : utf8 s = byte :: tail) (hspace : isAsciiWhitespace byte = false)
    (htoken : ∀ pos, lexToken pos byte (tail ++ utf8 t) = .ok (kind, utf8 t)) (h : Lexes t kinds) :
    Lexes (s ++ t) (kind :: kinds) := by
  intro fuel pos hfuel
  rw [utf8_append, hs, List.cons_append] at hfuel ⊢
  cases fuel with
  | zero => cases hfuel
  | succ fuel =>
    rw [lexFrom, if_neg (by simp [hspace]), htoken, Res.ok_bind]
    have hlen : (utf8 t).length ≤ fuel := by
      simp only [List.length_cons, List.length_append] at hfuel
      omega
    obtain ⟨tokens, hlex, hkinds⟩ := h fuel (pos + ((tail ++ utf8 t).length + 1 - (utf8 t).length)) hlen
    refine ⟨⟨kind, pos⟩ :: tokens, ?_, ?_⟩
    · simp only [hlex]
      rfl
    · rw [List.map_cons, hkinds]
      rfl

theorem lexes_single (hs : utf8 s = [byte]) (hspace : isAsciiWhitespace byte = false)
    (hkind : SINGLE.lookup byte = some kind) (h : Lexes t kinds) : Lexes (s ++ t) (kind :: kinds) := by
  refine lexes_cons hs hspace (fun pos => ?_) h
  simp only [lexToken, punctuation, hkind]
  rfl

theorem lexes_comma (h : Lexes t kinds) : Lexes ("," ++ t) (.comma :: kinds) :=
  lexes_single rfl (by decide) rfl h

theorem lexes_leftParen (h : Lexes t kinds) : Lexes ("(" ++ t) (.leftParen :: kinds) :=
  lexes_single rfl (by decide) rfl h

theorem lexes_rightParen (h : Lexes t kinds) : Lexes (")" ++ t) (.rightParen :: kinds) :=
  lexes_single rfl (by decide) rfl h

theorem lexes_star (h : Lexes t kinds) : Lexes ("*" ++ t) (.star :: kinds) :=
  lexes_single rfl (by decide) rfl h

theorem lexes_eq (h : Lexes t kinds) : Lexes ("=" ++ t) (.eq :: kinds) :=
  lexes_single rfl (by decide) rfl h

/-! Words, integers and strings go on until something ends them. -/

theorem Delimited.takeWhile {p : UInt8 → Bool} (h : Delimited t) (hp : p 0x20 = false ∧ p 0x2C = false ∧ p 0x29 = false) :
    (utf8 t).takeWhile p = [] ∧ (utf8 t).dropWhile p = utf8 t := by
  unfold Delimited at h
  cases hb : utf8 t with
  | nil => exact ⟨rfl, rfl⟩
  | cons b rest =>
    have hpb : p b = false := by
      rw [hb] at h
      obtain rfl | rfl | rfl := h b rfl
      · exact hp.1
      · exact hp.2.1
      · exact hp.2.2
    rw [List.takeWhile_cons_of_neg (by simp [hpb]), List.dropWhile_cons_of_neg (by simp [hpb])]
    exact ⟨rfl, rfl⟩

/-- A run of bytes before a delimiter is taken as a whole. -/
theorem Delimited.takeWhile_append {p : UInt8 → Bool} (h : Delimited t)
    (hp : p 0x20 = false ∧ p 0x2C = false ∧ p 0x29 = false) {bytes : Bytes} (hbytes : ∀ b ∈ bytes, p b = true) :
    (bytes ++ utf8 t).takeWhile p = bytes ∧ (bytes ++ utf8 t).dropWhile p = utf8 t := by
  obtain ⟨htake, hdrop⟩ := h.takeWhile hp
  rw [List.takeWhile_append_of_pos hbytes, List.dropWhile_append_of_pos hbytes, htake, hdrop, List.append_nil]
  exact ⟨rfl, rfl⟩

theorem punctuation_eq_none {rest : Bytes} (h : SINGLE.lookup byte = none ∧ WITH_EQ.lookup byte = none ∧
    ANGLE.lookup byte = none) : punctuation byte rest = none := by
  simp only [punctuation, h.1, h.2.1, h.2.2, ite_self, Option.map_none]

/-- What holds of the ASCII characters holds of those of a name. -/
theorem forall_isNameChar {p : Char → Prop} (h : ∀ n < 128, isNameChar (Char.ofNat n) = true → p (Char.ofNat n))
    {c : Char} (hc : isNameChar c = true) : c.toNat < 128 ∧ p c := by
  have hlt : c.toNat < 128 := by
    simp only [isNameChar, Char.isUpper, Char.isDigit, Bool.or_eq_true, Bool.and_eq_true, decide_eq_true_eq,
      beq_iff_eq] at hc
    rcases hc with (⟨-, hc⟩ | ⟨-, hc⟩) | rfl
    · exact lt_of_le_of_lt (UInt32.le_iff_toNat_le.1 hc) (by decide)
    · exact lt_of_le_of_lt (UInt32.le_iff_toNat_le.1 hc) (by decide)
    · decide
  have hp := h c.toNat hlt
  rw [Char.ofNat_toNat] at hp
  exact ⟨hlt, hp hc⟩

theorem isWordByte_of_isNameChar {c : Char} (h : isNameChar c = true) :
    isWordByte (UInt8.ofNat c.toNat) = true :=
  (forall_isNameChar (p := fun c => isWordByte (UInt8.ofNat c.toNat) = true) (by decide +kernel) h).2

theorem toUpper_of_isNameChar {c : Char} (h : isNameChar c = true) : c.toUpper = c :=
  (forall_isNameChar (p := fun c => c.toUpper = c) (by decide +kernel) h).2

/-- The first character of a name begins a word. -/
theorem begins_of_isNameChar {c : Char} (h : isNameChar c = true) (hd : c.isDigit = false) :
    (isAsciiAlphabetic (UInt8.ofNat c.toNat) || UInt8.ofNat c.toNat == 0x5F) = true :=
  (forall_isNameChar (p := fun c => c.isDigit = false →
    (isAsciiAlphabetic (UInt8.ofNat c.toNat) || UInt8.ofNat c.toNat == 0x5F) = true) (by decide +kernel) h).2 hd

/-- The bytes that begin words. -/
theorem not_other_of_begins (h : (isAsciiAlphabetic byte || byte == 0x5F) = true) :
    isAsciiWhitespace byte = false ∧ (SINGLE.lookup byte = none ∧ WITH_EQ.lookup byte = none ∧
      ANGLE.lookup byte = none) ∧ byte ≠ 0x27 ∧ byte ≠ 0x2D ∧ isAsciiDigit byte = false :=
  Server.forall_byte (p := fun byte => (isAsciiAlphabetic byte || byte == 0x5F) = true →
    isAsciiWhitespace byte = false ∧ (SINGLE.lookup byte = none ∧ WITH_EQ.lookup byte = none ∧
      ANGLE.lookup byte = none) ∧ byte ≠ 0x27 ∧ byte ≠ 0x2D ∧ isAsciiDigit byte = false)
    (by decide +kernel) byte h

/-- The bytes that begin numbers. -/
theorem not_other_of_digit (h : isAsciiDigit byte = true) :
    isAsciiWhitespace byte = false ∧ (SINGLE.lookup byte = none ∧ WITH_EQ.lookup byte = none ∧
      ANGLE.lookup byte = none) ∧ byte ≠ 0x27 ∧ byte ≠ 0x2D :=
  Server.forall_byte (p := fun byte => isAsciiDigit byte = true →
    isAsciiWhitespace byte = false ∧ (SINGLE.lookup byte = none ∧ WITH_EQ.lookup byte = none ∧
      ANGLE.lookup byte = none) ∧ byte ≠ 0x27 ∧ byte ≠ 0x2D) (by decide +kernel) byte h

theorem utf8_name (h : ∀ c ∈ s.toList, isNameChar c = true) :
    utf8 s = s.toList.map fun c => UInt8.ofNat c.toNat := by
  conv_lhs => rw [← String.ofList_toList (s := s)]
  exact utf8_ascii fun c hc => (forall_isNameChar (p := fun _ => True) (fun _ _ _ => trivial) (h c hc)).1

theorem slice_utf8 (s : String) : slice (utf8 s) = .ok s := by
  rw [slice, ofUtf8_utf8]

theorem toAsciiUppercase_name (h : IsName s) : toAsciiUppercase s = s := by
  rw [toAsciiUppercase, List.map_congr_left fun c hc => toUpper_of_isNameChar (h.chars c hc), List.map_id',
    String.ofList_toList]

/-- **A name** is one word. -/
theorem lexes_word (hs : IsName s) : LexesAs s (.word s) := by
  intro t kinds ht h
  obtain ⟨c, cs, hcs, hdigit⟩ := hs.first
  have hbytes : utf8 s = UInt8.ofNat c.toNat :: cs.map fun c => UInt8.ofNat c.toNat := by
    rw [utf8_name hs.chars, hcs, List.map_cons]
  have hname : ∀ c' ∈ c :: cs, isNameChar c' = true := fun c' hc' => hs.chars c' (by rwa [hcs])
  have hbegin := begins_of_isNameChar (hname c List.mem_cons_self) hdigit
  obtain ⟨hspace, hpunct, hquote, hminus, hnot⟩ := not_other_of_begins hbegin
  refine lexes_cons hbytes hspace (fun pos => ?_) h
  have hword : ∀ b ∈ cs.map fun c => UInt8.ofNat c.toNat, isWordByte b = true := by
    intro b hb
    obtain ⟨c', hc', rfl⟩ := List.mem_map.1 hb
    exact isWordByte_of_isNameChar (hname c' (List.mem_cons_of_mem _ hc'))
  obtain ⟨htake, hdrop⟩ := ht.takeWhile_append (by decide) hword
  rw [lexToken, punctuation_eq_none hpunct]
  simp only [if_neg hquote, if_neg hminus, hnot, Bool.false_eq_true, if_false, if_pos hbegin]
  rw [htake, hdrop, ← hbytes, slice_utf8, Res.ok_bind, toAsciiUppercase_name hs]
  rfl

theorem isNameChar_of_isDigit {c : Char} (h : c.isDigit = true) : isNameChar c = true := by
  simp [isNameChar, h]

/-- The bytes of a decimal number. -/
theorem utf8_repr (n : ℕ) : ∃ byte tail, utf8 n.repr = byte :: tail ∧ ∀ b ∈ byte :: tail, isAsciiDigit b = true := by
  have hname : ∀ c ∈ n.repr.toList, isNameChar c = true := fun c hc => isNameChar_of_isDigit (isDigit_repr n hc)
  have hdigit : ∀ b ∈ utf8 n.repr, isAsciiDigit b = true := by
    intro b hb
    rw [utf8_name hname] at hb
    obtain ⟨c, hc, rfl⟩ := List.mem_map.1 hb
    exact (forall_isNameChar (p := fun c => c.isDigit = true → isAsciiDigit (UInt8.ofNat c.toNat) = true)
      (by decide +kernel) (hname c hc)).2 (isDigit_repr n hc)
  obtain ⟨c, cs, hcs, -⟩ := exists_repr n
  have hbytes : utf8 n.repr = UInt8.ofNat c.toNat :: cs.map fun c => UInt8.ofNat c.toNat := by
    rw [utf8_name hname, hcs, List.map_cons]
  rw [hbytes] at hdigit
  exact ⟨_, _, hbytes, hdigit⟩

theorem lexInteger_print {n : I64} {sign digits : Bytes} (hprint : utf8 n.print = sign ++ digits)
    (hdigits : ∀ b ∈ digits, isAsciiDigit b = true) (ht : Delimited t) (pos : ℕ) :
    lexInteger pos sign (digits ++ utf8 t) = .ok (.integer n, utf8 t) := by
  obtain ⟨htake, hdrop⟩ := ht.takeWhile_append (by decide) hdigits
  rw [lexInteger, htake, hdrop, ← hprint, slice_utf8, Res.ok_bind, I64.parse_print]
  rfl

/-- **An integer** is one token, with its sign. -/
theorem lexes_integer (n : I64) : LexesAs n.print (.integer n) := by
  intro t kinds ht h
  obtain ⟨byte, tail, hrepr, hdigits⟩ := utf8_repr n.val.natAbs
  have hbyte := hdigits byte List.mem_cons_self
  by_cases hneg : n.val < 0
  · have hprint : utf8 n.print = [0x2D] ++ (byte :: tail) := by
      rw [I64.print, if_pos hneg, utf8_append, hrepr]
      rfl
    refine lexes_cons hprint (by decide) (fun pos => ?_) h
    have hhead : ((byte :: tail ++ utf8 t).head?.map isAsciiDigit).getD false = true := by
      rw [List.cons_append, List.head?_cons, Option.map_some, Option.getD_some, hbyte]
    rw [lexToken, punctuation_eq_none (by decide)]
    exact (if_pos hhead).trans (lexInteger_print hprint hdigits ht pos)
  · have hprint : utf8 n.print = [] ++ (byte :: tail) := by
      rw [I64.print, if_neg hneg, hrepr]
      rfl
    obtain ⟨hspace, hpunct, hquote, hminus⟩ := not_other_of_digit hbyte
    refine lexes_cons hprint hspace (fun pos => ?_) h
    rw [lexToken, punctuation_eq_none hpunct]
    simp only [if_neg hquote, if_neg hminus, if_pos hbyte]
    exact lexInteger_print hprint hdigits ht pos

/-! ## Strings -/

theorem utf8_cons (c : Char) (s : String) :
    utf8 (String.ofList [c] ++ s) = String.utf8EncodeChar c ++ utf8 s := by
  rw [utf8_append, utf8_ofList, List.flatMap_singleton]

/-- **The loop over a literal** gives the characters that were written, and stops behind its quote. -/
theorem lexString_escaped (pos : ℕ) (ht : Delimited t) (cs value : List Char) (fuel : ℕ)
    (hfuel : (utf8 (String.ofList (escaped cs) ++ ("'" ++ t))).length ≤ fuel) :
    lexString pos fuel (utf8 (String.ofList (escaped cs) ++ ("'" ++ t))) value =
      .ok (String.ofList (value ++ cs), utf8 t) := by
  induction cs generalizing value fuel with
  | nil =>
    have hbytes : utf8 (String.ofList (escaped []) ++ ("'" ++ t)) = 0x27 :: utf8 t := by
      rw [utf8_append, utf8_append]
      rfl
    rw [hbytes] at hfuel ⊢
    obtain ⟨fuel, rfl⟩ : ∃ n, fuel = n + 1 := Nat.exists_eq_succ_of_ne_zero (by rintro rfl; cases hfuel)
    rw [lexString, if_pos rfl, List.append_nil]
    intro rest hrest
    obtain h | h | h := ht 0x27 (by rw [hrest]; rfl) <;> exact absurd h (by decide)
  | cons c cs ih =>
    by_cases hc : c = '\''
    · subst hc
      have hbytes : utf8 (String.ofList (escaped ('\'' :: cs)) ++ ("'" ++ t)) =
          0x27 :: 0x27 :: utf8 (String.ofList (escaped cs) ++ ("'" ++ t)) := by
        rw [utf8_append, utf8_append (String.ofList (escaped cs)), utf8_ofList, utf8_ofList]
        rfl
      rw [hbytes] at hfuel ⊢
      obtain ⟨fuel, rfl⟩ : ∃ n, fuel = n + 1 := Nat.exists_eq_succ_of_ne_zero (by rintro rfl; cases hfuel)
      rw [lexString, if_pos rfl, ih _ _ (by simp only [List.length_cons] at hfuel; omega), List.append_assoc]
      rfl
    · have htext : String.ofList (escaped (c :: cs)) ++ ("'" ++ t) =
          String.ofList [c] ++ (String.ofList (escaped cs) ++ ("'" ++ t)) := by
        have hesc : escaped (c :: cs) = [c] ++ escaped cs := by
          rw [escaped, List.flatMap_cons, if_neg hc]
          rfl
        rw [hesc, String.ofList_append, String.append_assoc]
      rw [htext] at hfuel ⊢
      generalize htail : String.ofList (escaped cs) ++ ("'" ++ t) = tail at hfuel ih ⊢
      have hslice := slice_utf8 (String.ofList [c] ++ tail)
      obtain ⟨byte, rest, hbytes⟩ := List.exists_cons_of_ne_nil (String.utf8EncodeChar_ne_nil (c := c))
      have hbyte : byte ≠ 0x27 := by
        rintro rfl
        exact hc (eq_of_utf8EncodeChar hbytes (by decide))
      have hsize : (byte :: rest).length = c.utf8Size := by
        rw [← hbytes, String.length_utf8EncodeChar]
      rw [utf8_cons, hbytes, List.cons_append] at hfuel hslice ⊢
      obtain ⟨fuel, rfl⟩ : ∃ n, fuel = n + 1 := Nat.exists_eq_succ_of_ne_zero (by rintro rfl; cases hfuel)
      rw [lexString.eq_def]
      simp only [if_neg hbyte]
      rw [hslice, Res.ok_bind]
      have hlist : (String.ofList [c] ++ tail).toList = c :: tail.toList := by simp
      have hdrop : (byte :: (rest ++ utf8 tail)).drop c.utf8Size = utf8 tail := by
        rw [← hsize, ← List.cons_append, List.drop_left]
      simp only [hlist, hdrop]
      have hlen : (utf8 tail).length ≤ fuel := by
        simp only [List.length_cons, List.length_append] at hfuel
        omega
      rw [ih _ _ hlen, List.append_assoc]
      rfl

/-- **A string in quotes** is one token. -/
theorem lexes_quoted (s : String) : LexesAs (quoted s) (.string s) := by
  intro t kinds ht h
  have htext : quoted s ++ t = "'" ++ (String.ofList (escaped s.toList) ++ ("'" ++ t)) := by
    simp only [quoted, String.append_assoc]
  have hbytes : utf8 (quoted s) = 0x27 :: utf8 (String.ofList (escaped s.toList) ++ "'") := by
    rw [quoted, String.append_assoc, utf8_append]
    rfl
  refine lexes_cons hbytes (by decide) (fun pos => ?_) h
  rw [← utf8_append, String.append_assoc, lexToken, punctuation_eq_none (by decide)]
  simp only [if_true]
  rw [lexString_escaped pos ht s.toList [] _ (Nat.le_succ _), Res.ok_bind, List.nil_append,
    String.ofList_toList]
  rfl

/-- The words of the language are names. -/
theorem isName_keyword (h : (s.toList.head?.any fun c => !c.isDigit) = true ∧ s.toList.all isNameChar = true) :
    IsName s := by
  obtain ⟨hfirst, hall⟩ := h
  refine ⟨?_, List.all_eq_true.1 hall⟩
  cases hcs : s.toList with
  | nil =>
    rw [hcs] at hfirst
    cases hfirst
  | cons c cs =>
    rw [hcs] at hfirst
    exact ⟨c, cs, rfl, by simpa using hfirst⟩

/-- **Values** are read as they were written. -/
theorem lexes_written (v : Value) : LexesAs v.written v.token := by
  cases v with
  | null => exact lexes_word (isName_keyword (by decide +kernel))
  | integer value => exact lexes_integer value
  | text value => exact lexes_quoted value
  | boolean value =>
    cases value with
    | false => exact lexes_word (isName_keyword (by decide +kernel))
    | true => exact lexes_word (isName_keyword (by decide +kernel))

/-! ## Statements -/

theorem delimited_of_head (hs : (utf8 s).head? = some 0x20 ∨ (utf8 s).head? = some 0x2C ∨
    (utf8 s).head? = some 0x29) : Delimited (s ++ t) := by
  intro b hb
  rw [utf8_append, List.head?_append] at hb
  rcases hs with hs | hs | hs
  all_goals
    rw [hs] at hb
    cases hb
  · exact Or.inl rfl
  · exact Or.inr (Or.inl rfl)
  · exact Or.inr (Or.inr rfl)

theorem delimited_space (t : String) : Delimited (" " ++ t) := delimited_of_head (Or.inl rfl)

theorem delimited_comma (t : String) : Delimited ("," ++ t) := delimited_of_head (Or.inr (Or.inl rfl))

theorem delimited_rightParen (t : String) : Delimited (")" ++ t) := delimited_of_head (Or.inr (Or.inr rfl))

theorem delimited_empty : Delimited "" := fun _ h => (nomatch h)

/-- Tokens with commas between them. -/
theorem lexes_intercalate {texts : List String} {tokens : List TokenKind}
    (htexts : List.Forall₂ LexesAs texts tokens) (hne : texts ≠ []) (ht : Delimited t) (h : Lexes t kinds) :
    Lexes (", ".intercalate texts ++ t) (tokens.intersperse .comma ++ kinds) := by
  induction htexts with
  | nil => exact absurd rfl hne
  | @cons text token texts tokens htext htexts ih =>
    cases htexts with
    | nil =>
      rw [String.intercalate_singleton, List.intersperse_singleton]
      exact htext t kinds ht h
    | @cons next token' texts tokens hnext hrest =>
      have hsplit : ", ".intercalate (text :: next :: texts) ++ t =
          text ++ ("," ++ (" " ++ (", ".intercalate (next :: texts) ++ t))) := by
        have hcomma : ", " = "," ++ " " := rfl
        rw [String.intercalate_cons_cons, String.append_assoc, String.append_assoc]
        nth_rewrite 1 [hcomma]
        rw [String.append_assoc]
      rw [hsplit, List.intersperse_cons_cons]
      exact htext _ _ (delimited_comma _) (lexes_comma (lexes_space (ih (List.cons_ne_nil _ _))))

end Lex

/-- The tokens of an `INSERT`. -/
def insertKinds (schema : Schema) (row : Row) : List TokenKind :=
  .word "INSERT" :: .word "INTO" :: .word schema.name :: .leftParen ::
    ((schema.columns.map fun column => .word column.name).intersperse .comma ++
      .rightParen :: .word "VALUES" :: .leftParen ::
        ((row.map Value.token).intersperse .comma ++ [.rightParen]))

/-- The tokens of a `SELECT`. -/
def selectKinds (schema : Schema) (column : ColumnDef) (primary : Value) : List TokenKind :=
  [.word "SELECT", .star, .word "FROM", .word schema.name, .word "WHERE", .word column.name, .eq, primary.token]

section Texts
variable {schema : Schema} {row : Row} {column : ColumnDef} {primary : Value} {α : Type}

theorem lexesAs_map {f : α → String} {g : α → TokenKind} {l : List α} (h : ∀ a ∈ l, LexesAs (f a) (g a)) :
    List.Forall₂ LexesAs (l.map f) (l.map g) := by
  rw [List.forall₂_map_left_iff, List.forall₂_map_right_iff, List.forall₂_same]
  exact h

theorem lexes_keyword {w t : String} {kinds : List TokenKind}
    (hw : (w.toList.head?.any fun c => !c.isDigit) = true ∧ w.toList.all isNameChar = true)
    (h : Lexes t kinds) : Lexes (w ++ (" " ++ t)) (.word w :: kinds) :=
  lexes_word (isName_keyword hw) _ _ (delimited_space t) (lexes_space h)

theorem lexes_insertText (hv : schema.Valid) (hrow : row ≠ []) :
    Lexes (insertText schema row) (insertKinds schema row) := by
  have htext : insertText schema row = "INSERT" ++ (" " ++ ("INTO" ++ (" " ++ (schema.name ++ (" " ++ ("(" ++
      (", ".intercalate (schema.columns.map ColumnDef.name) ++ (")" ++ (" " ++ ("VALUES" ++ (" " ++ ("(" ++
        (", ".intercalate (row.map Value.written) ++ (")" ++ "")))))))))))))) := by
    change ("INSERT" ++ (" " ++ ("INTO" ++ " "))) ++ schema.name ++ (" " ++ "(") ++
      ", ".intercalate (schema.columns.map ColumnDef.name) ++ (")" ++ (" " ++ ("VALUES" ++ (" " ++ "(")))) ++
      ", ".intercalate (row.map Value.written) ++ ")" = _
    simp only [String.append_assoc, String.append_empty]
  have hne : schema.columns.map ColumnDef.name ≠ [] :=
    mt List.map_eq_nil_iff.1 (Schema.validate_eq_ok.1 hv.validated).1
  have hnames := lexesAs_map (f := ColumnDef.name) fun column hc => lexes_word (hv.columns column hc)
  have hvalues := lexesAs_map (l := row) fun v _ => lexes_written v
  have hend : Lexes (")" ++ "") [.rightParen] := lexes_rightParen lexes_empty
  rw [htext]
  refine lexes_keyword (by decide +kernel) (lexes_keyword (by decide +kernel) ?_)
  refine lexes_word hv.name _ _ (delimited_space _) (lexes_space (lexes_leftParen ?_))
  refine lexes_intercalate hnames hne (delimited_rightParen _) (lexes_rightParen (lexes_space ?_))
  refine lexes_keyword (by decide +kernel) (lexes_leftParen ?_)
  exact lexes_intercalate hvalues (mt List.map_eq_nil_iff.1 hrow) (delimited_rightParen _) hend

theorem lexes_selectText (hv : schema.Valid) (hc : IsName column.name) :
    Lexes (selectText schema column primary) (selectKinds schema column primary) := by
  have htext : selectText schema column primary = "SELECT" ++ (" " ++ ("*" ++ (" " ++ ("FROM" ++ (" " ++
      (schema.name ++ (" " ++ ("WHERE" ++ (" " ++ (column.name ++ (" " ++ ("=" ++ (" " ++
        (primary.written ++ "")))))))))))))) := by
    change ("SELECT" ++ (" " ++ ("*" ++ (" " ++ ("FROM" ++ " "))))) ++ schema.name ++ (" " ++ ("WHERE" ++ " ")) ++
      column.name ++ (" " ++ ("=" ++ " ")) ++ primary.written = _
    simp only [String.append_assoc, String.append_empty]
  rw [htext]
  refine lexes_keyword (by decide +kernel) (lexes_star (lexes_space ?_))
  refine lexes_keyword (by decide +kernel) ?_
  refine lexes_word hv.name _ _ (delimited_space _) (lexes_space ?_)
  refine lexes_keyword (by decide +kernel) ?_
  refine lexes_word hc _ _ (delimited_space _) (lexes_space (lexes_eq (lexes_space ?_)))
  exact lexes_written primary _ _ delimited_empty lexes_empty

end Texts

end NutDb.Sql
