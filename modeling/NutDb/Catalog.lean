/-
  Table schemas and rows as stored (`src/catalog.rs`).

  A table `T` has the catalog entry `__CATALOG:T` and one entry for each row,
  under `__ROW:T:` and the primary value in hexadecimal bytes.  What is encoded
  is decoded again (`decodeRow_encodeRow`, `decodeSchema_encodeSchema`), provided
  that names are words: they hold no separator.
-/
import NutDb.Sql.Ast
import NutDb.Lib.Act
import NutDb.Server.Wire

namespace NutDb.Sql

open Lib

/-- `input`. -/
def input {α : Type} (message : String) : Res α := Res.fail .invalidInput message

/-- `invalid`. -/
def invalid {α : Type} (message : String) : Res α := Res.fail .invalidData message

/-! ## Schemas -/

/-- `Schema`. -/
structure Schema where
  name : String
  columns : List ColumnDef
  deriving DecidableEq, Repr

namespace Schema

/-- The loop of `validate`: no column has the name of an earlier one. -/
def distinctNames : List ColumnDef → List ColumnDef → Bool
  | _, [] => true
  | earlier, column :: columns =>
    !(earlier.any fun e => e.name == column.name) && distinctNames (earlier ++ [column]) columns

/-- `Schema::validate`. -/
def validate (schema : Schema) : Res Unit :=
  if schema.columns.isEmpty then input "catalog: table needs at least one column"
  else if (schema.columns.filter ColumnDef.primaryKey).length ≠ 1 then
    input "catalog: table needs exactly one primary key"
  else if distinctNames [] schema.columns then .ok ()
  else input "catalog: duplicate column"

/-- `Schema::primary_index`. -/
def primaryIndex (schema : Schema) : Res ℕ :=
  match schema.columns.findIdx? ColumnDef.primaryKey with
  | some index => .ok index
  | none => .error (.panic (.expect "validated schema"))

/-- `Schema::column_index`. -/
def columnIndex (schema : Schema) (name : String) : Option ℕ :=
  schema.columns.findIdx? fun column => column.name == name

end Schema

/-- `encode_schema`, for a column. -/
def encodeColumn (column : ColumnDef) : String :=
  let kind := match column.dataType with
    | .integer => "I"
    | .text => "T"
    | .boolean => "B"
  column.name ++ "|" ++ kind ++ "|" ++ if column.primaryKey then "1" else "0"

/-- `encode_schema`. -/
def encodeSchema (schema : Schema) : String := "\n".intercalate (schema.columns.map encodeColumn)

/-- A line of `decode_schema`. -/
def decodeColumn (line : String) : Res ColumnDef :=
  match split '|' line with
  | [name, kind, flag] => do
    let dataType ←
      if kind = "I" then .ok DataType.integer
      else if kind = "T" then .ok .text
      else if kind = "B" then .ok .boolean
      else invalid "catalog: unknown column type"
    let primaryKey ←
      if flag = "0" then .ok false
      else if flag = "1" then .ok true
      else invalid "catalog: malformed primary-key flag"
    return ⟨name, dataType, primaryKey⟩
  | _ => invalid "catalog: malformed schema"

/-- `decode_schema`. -/
def decodeSchema (name encoded : String) : Res Schema := do
  let columns ← (lines encoded).mapM decodeColumn
  let schema : Schema := ⟨name, columns⟩
  schema.validate
  return schema

/-! ## Values -/

/-- `hex`: the same function as that of the server. -/
def hex (bytes : Bytes) : String := Server.hex bytes

/-- `digit`. -/
def digit (byte : UInt8) : Res UInt8 :=
  if 0x30 ≤ byte ∧ byte ≤ 0x39 then .ok (byte - 0x30)
  else if 0x61 ≤ byte ∧ byte ≤ 0x66 then .ok (byte - 0x61 + 10)
  else invalid "catalog: invalid hex"

/-- The bytes of pairs of digits. -/
def unhexPairs : Bytes → Res Bytes
  | high :: low :: rest => do
    let h ← digit high
    let l ← digit low
    let bytes ← unhexPairs rest
    return (h <<< 4 ||| l) :: bytes
  | _ => .ok []

/-- `unhex`. -/
def unhex (value : String) : Res Bytes :=
  if (utf8 value).length % 2 ≠ 0 then invalid "catalog: odd hex length" else unhexPairs (utf8 value)

/-- `encode_value`. -/
def encodeValue : Value → Bytes
  | .null => [0x4E]
  | .integer value => 0x49 :: value.toLe
  | .text value => 0x54 :: utf8 value
  | .boolean value => [0x42, if value then 1 else 0]

/-- `decode_value`. -/
def decodeValue : Bytes → Res Value
  | [] => invalid "catalog: malformed row value"
  | tag :: rest =>
    if tag = 0x4E ∧ rest.length = 0 then .ok .null
    else if tag = 0x49 ∧ rest.length = 8 then .ok (.integer (I64.ofLe rest))
    else if tag = 0x54 then
      match ofUtf8 rest with
      | some text => .ok (.text text)
      | none => invalid "catalog: row text is not UTF-8"
    else if tag = 0x42 ∧ (rest = [0] ∨ rest = [1]) then .ok (.boolean (rest == [1]))
    else invalid "catalog: malformed row value"

/-- The value is of the type, or `NULL`. -/
def Value.hasType : Value → DataType → Bool
  | .null, _ => true
  | .integer _, .integer => true
  | .text _, .text => true
  | .boolean _, .boolean => true
  | _, _ => false

/-- `check_type`. -/
def checkType (value : Value) (dataType : DataType) : Res Unit :=
  if value.hasType dataType then .ok () else input "sql: value has the wrong column type"

/-! ## Rows -/

abbrev Row := List Value

/-- `encode_row`. -/
def encodeRow (row : Row) : String := ":".intercalate (row.map fun value => hex (encodeValue value))

/-- The type checks of `decode_row`. -/
def checkTypes : List (Value × ColumnDef) → Res Unit
  | [] => .ok ()
  | (value, column) :: rest => do
    checkType value column.dataType
    checkTypes rest

/-- `decode_row`. -/
def decodeRow (encoded : String) (schema : Schema) : Res Row := do
  let values ← (split ':' encoded).mapM fun part => unhex part >>= decodeValue
  if values.length ≠ schema.columns.length then invalid "catalog: row column count mismatch"
  else
    checkTypes (values.zip schema.columns)
    return values

/-! ## Keys -/

/-- `catalog_key`. -/
def catalogKey (table : String) : String := "__CATALOG:" ++ table

/-- `row_prefix`. -/
def rowPrefix (table : String) : String := "__ROW:" ++ table ++ ":"

/-- `row_key_for_primary`. -/
def rowKeyForPrimary (schema : Schema) (primary : Value) : Res String :=
  if primary = .null then input "sql: primary key cannot be NULL"
  else do
    let index ← schema.primaryIndex
    let column ← Res.get schema.columns index
    checkType primary column.dataType
    return rowPrefix schema.name ++ hex (encodeValue primary)

/-- `row_key`. -/
def rowKey (schema : Schema) (row : Row) : Res String := do
  let index ← schema.primaryIndex
  let primary ← Res.ofOption .invalidInput "sql: row does not match schema" row[index]?
  if primary = .null then input "sql: primary key cannot be NULL"
  else rowKeyForPrimary schema primary

/-! ## Stored schemas -/

/-- The calls of a transaction that the SQL layer uses, with `txn_error` on their errors. -/
class Txn (σ : Type) where
  get : String → Act σ (Option String)
  scanPrefix : String → Act σ (List (String × String))
  set : String → String → Act σ Unit
  delete : String → Act σ Unit

section
variable {σ : Type} [Txn σ]

/-- `load_schema`. -/
def loadSchema (table : String) : Act σ Schema := do
  let encoded ← Txn.get (catalogKey table)
  match encoded with
  | some encoded => Act.lift (decodeSchema table encoded)
  | none => Act.lift (input ("sql: unknown table '" ++ table ++ "'"))

/-- `save_schema`. -/
def saveSchema (schema : Schema) : Act σ Unit := do
  Act.lift schema.validate
  Txn.set (catalogKey schema.name) (encodeSchema schema)

end

/-! ## Round trips -/

theorem digit_hexDigit (byte : UInt8) :
    digit (UInt8.ofNat (Server.hexDigit byte).toNat) = .ok (byte &&& 15) := by
  have h : ∀ d < 16, digit (UInt8.ofNat (Server.DIGITS.getD d '0').toNat) = .ok (UInt8.ofNat d) := by
    intro d hd
    interval_cases d <;> rfl
  have hd := h (byte &&& 15).toNat (Server.toNat_and_15 byte)
  rwa [UInt8.ofNat_toNat] at hd

theorem unhexPairs_hex (bytes : Bytes) : unhexPairs (utf8 (hex bytes)) = .ok bytes := by
  rw [hex, Server.utf8_hex]
  induction bytes with
  | nil => rfl
  | cons byte rest ih =>
    rw [List.flatMap_cons, List.map_append]
    simp only [List.map_cons, List.map_nil, List.cons_append, List.nil_append, unhexPairs,
      digit_hexDigit, ih, Res.ok_bind, Server.byte_halves]
    rfl

@[simp] theorem unhex_hex (bytes : Bytes) : unhex (hex bytes) = .ok bytes := by
  have heven : (utf8 (hex bytes)).length % 2 = 0 := by
    rw [hex, Server.utf8_hex, List.length_map, List.length_flatMap]
    simp
  rw [unhex, if_neg (by simp [heven]), unhexPairs_hex]

@[simp] theorem decodeValue_encodeValue (value : Value) : decodeValue (encodeValue value) = .ok value := by
  cases value with
  | null => rfl
  | integer value => simp [encodeValue, decodeValue]
  | text value => simp [encodeValue, decodeValue]
  | boolean value => cases value <;> rfl

theorem encodeValue_injective : Function.Injective encodeValue := by
  intro v w h
  have hv := decodeValue_encodeValue v
  rw [h, decodeValue_encodeValue] at hv
  exact (Except.ok.inj hv).symm

theorem hex_injective : Function.Injective hex := by
  intro a b h
  have ha := unhex_hex a
  rw [h, unhex_hex] at ha
  exact (Except.ok.inj ha).symm

theorem notMem_hex {c : Char} (h : c ∉ Server.DIGITS) (bytes : Bytes) : c ∉ (hex bytes).toList :=
  Server.notMem_hex h bytes

theorem checkType_eq_ok {value : Value} {dataType : DataType} {u : Unit} :
    checkType value dataType = .ok u ↔ value.hasType dataType = true := by
  unfold checkType
  split_ifs with h
  · simp [h]
  · simp [h, input, Res.fail]

/-- A row with one value for each column, of its type or `NULL`. -/
def Matches (schema : Schema) (row : Row) : Prop :=
  List.Forall₂ (fun value column => value.hasType column.dataType = true) row schema.columns

theorem checkTypes_eq_ok {row : Row} {columns : List ColumnDef} {u : Unit}
    (hlen : row.length = columns.length) : checkTypes (row.zip columns) = .ok u ↔
      List.Forall₂ (fun value column => value.hasType column.dataType = true) row columns := by
  induction row generalizing columns with
  | nil =>
    obtain rfl := List.length_eq_zero_iff.1 hlen.symm
    simp [checkTypes]
  | cons value row ih =>
    cases columns with
    | nil => cases hlen
    | cons column columns =>
      rw [List.zip_cons_cons, checkTypes, Res.bind_eq_ok, List.forall₂_cons]
      simp only [checkType_eq_ok, ih (Nat.succ.inj hlen)]
      simp

theorem mapM_decodeValue (row : Row) :
    (row.map fun value => hex (encodeValue value)).mapM (fun part => unhex part >>= decodeValue) =
      .ok row := by
  induction row with
  | nil => rfl
  | cons value row ih =>
    rw [List.map_cons, List.mapM_cons, unhex_hex, Res.ok_bind, decodeValue_encodeValue, ih]
    rfl

/-- **A row is read back as encoded.** -/
theorem decodeRow_encodeRow {schema : Schema} {row : Row} (hrow : Matches schema row)
    (hne : schema.columns ≠ []) : decodeRow (encodeRow row) schema = .ok row := by
  have hlen : row.length = schema.columns.length := hrow.length_eq
  have hnil : row.map (fun value => hex (encodeValue value)) ≠ [] := by
    intro h
    rw [List.map_eq_nil_iff.1 h] at hlen
    exact hne (List.length_eq_zero_iff.1 hlen.symm)
  have hsplit : split ':' (encodeRow row) = row.map fun value => hex (encodeValue value) := by
    refine split_intercalate hnil fun part hpart => ?_
    obtain ⟨value, -, rfl⟩ := List.mem_map.1 hpart
    exact notMem_hex (by decide) _
  rw [decodeRow, hsplit, mapM_decodeValue, Res.ok_bind, if_neg (not_not.2 hlen),
    (checkTypes_eq_ok (u := ()) hlen).2 hrow]
  rfl

/-! ## Exactness -/

/-- The digit that was read is the digit that is written. -/
theorem hexDigit_of_digit {byte d : UInt8} (h : digit byte = .ok d) :
    d.toNat < 16 ∧ UInt8.ofNat (Server.hexDigit d).toNat = byte := by
  have hall : ∀ n < 256, (digit (UInt8.ofNat n)).toOption.all (fun d =>
      decide (d.toNat < 16 ∧ UInt8.ofNat (Server.hexDigit d).toNat = UInt8.ofNat n)) = true := by
    decide +kernel
  have hbyte := Server.forall_byte (p := fun byte => (digit byte).toOption.all (fun d =>
    decide (d.toNat < 16 ∧ UInt8.ofNat (Server.hexDigit d).toNat = byte)) = true) hall byte
  rw [h] at hbyte
  exact of_decide_eq_true hbyte

theorem hexDigit_halves {high low : UInt8} (hh : high.toNat < 16) (hl : low.toNat < 16) :
    Server.hexDigit ((high <<< 4 ||| low) >>> 4) = Server.hexDigit high ∧
      Server.hexDigit (high <<< 4 ||| low) = Server.hexDigit low := by
  have hall : ∀ h < 16, ∀ l < 16,
      Server.hexDigit ((UInt8.ofNat h <<< 4 ||| UInt8.ofNat l) >>> 4) = Server.hexDigit (UInt8.ofNat h) ∧
        Server.hexDigit (UInt8.ofNat h <<< 4 ||| UInt8.ofNat l) = Server.hexDigit (UInt8.ofNat l) := by
    decide +kernel
  have hbytes := hall high.toNat hh low.toNat hl
  rwa [UInt8.ofNat_toNat, UInt8.ofNat_toNat] at hbytes

theorem utf8_hex_of_unhexPairs {pairs bytes : Bytes} (heven : pairs.length % 2 = 0)
    (h : unhexPairs pairs = .ok bytes) : utf8 (hex bytes) = pairs := by
  rw [hex, Server.utf8_hex]
  induction pairs using unhexPairs.induct generalizing bytes with
  | case1 high low rest ih =>
    rw [unhexPairs] at h
    obtain ⟨d, hd, h⟩ := Res.bind_eq_ok.1 h
    obtain ⟨e, he, h⟩ := Res.bind_eq_ok.1 h
    obtain ⟨more, hmore, h⟩ := Res.bind_eq_ok.1 h
    cases h
    obtain ⟨hd16, hdbyte⟩ := hexDigit_of_digit hd
    obtain ⟨he16, hebyte⟩ := hexDigit_of_digit he
    obtain ⟨h1, h2⟩ := hexDigit_halves hd16 he16
    have heven' : rest.length % 2 = 0 := by
      rw [List.length_cons, List.length_cons] at heven
      omega
    rw [List.flatMap_cons, List.map_append, ih heven' hmore, h1, h2]
    simp only [List.map_cons, List.map_nil, hdbyte, hebyte]
    rfl
  | case2 pairs hpairs =>
    -- What is left of an even number of digits is nothing.
    cases pairs with
    | nil =>
      cases h
      rfl
    | cons high rest =>
      cases rest with
      | nil => cases heven
      | cons low rest => exact absurd rfl (hpairs high low rest)

/-- **What is read as hexadecimal bytes** is how the bytes are written. -/
theorem hex_of_unhex {value : String} {bytes : Bytes} (h : unhex value = .ok bytes) : hex bytes = value := by
  unfold unhex at h
  split_ifs at h with heven
  · cases h
  · exact utf8_injective (utf8_hex_of_unhexPairs (not_not.1 heven) h)

theorem encodeValue_of_decodeValue {bytes : Bytes} {value : Value} (h : decodeValue bytes = .ok value) :
    encodeValue value = bytes := by
  cases bytes with
  | nil => cases h
  | cons tag rest =>
    rw [decodeValue] at h
    split_ifs at h with h1 h2 h3 h4
    · cases h
      rw [h1.1, List.length_eq_zero_iff.1 h1.2]
      rfl
    · cases h
      rw [encodeValue, I64.toLe_ofLe h2.2, h2.1]
    · cases htext : ofUtf8 rest with
      | none =>
        rw [htext] at h
        cases h
      | some text =>
        rw [htext] at h
        cases h
        rw [encodeValue, utf8_of_ofUtf8 htext, h3]
    · cases h
      obtain ⟨rfl, rfl | rfl⟩ := h4
      · rfl
      · rfl
    · cases h

theorem map_encode_of_mapM {parts : List String} {row : Row}
    (h : parts.mapM (fun part => unhex part >>= decodeValue) = .ok row) :
    row.map (fun value => hex (encodeValue value)) = parts := by
  induction parts generalizing row with
  | nil =>
    cases h
    rfl
  | cons part parts ih =>
    rw [List.mapM_cons] at h
    obtain ⟨value, hvalue, h⟩ := Res.bind_eq_ok.1 h
    obtain ⟨row', hrow, h⟩ := Res.bind_eq_ok.1 h
    cases h
    obtain ⟨bytes, hbytes, hvalue⟩ := Res.bind_eq_ok.1 hvalue
    rw [List.map_cons, ih hrow, encodeValue_of_decodeValue hvalue, hex_of_unhex hbytes]

/-- **What is read as a row** is how the row is written. -/
theorem encodeRow_of_decodeRow {encoded : String} {schema : Schema} {row : Row}
    (h : decodeRow encoded schema = .ok row) : encodeRow row = encoded := by
  obtain ⟨values, hvalues, h⟩ := Res.bind_eq_ok.1 h
  split_ifs at h
  · cases h
  · obtain ⟨u, -, h⟩ := Res.bind_eq_ok.1 h
    cases h
    rw [encodeRow, map_encode_of_mapM hvalues]
    exact intercalate_split ':' encoded

/-! ## Names -/

/-- The characters of words, in upper case. -/
def isNameChar (c : Char) : Bool := c.isUpper || c.isDigit || c == '_'

/-- The names that the lexer gives to tables and columns. -/
structure IsName (s : String) : Prop where
  first : ∃ c cs, s.toList = c :: cs ∧ c.isDigit = false
  chars : ∀ c ∈ s.toList, isNameChar c = true

theorem IsName.notMem {s : String} (h : IsName s) {c : Char} (hc : isNameChar c = false) :
    c ∉ s.toList := by
  intro hmem
  rw [h.chars c hmem] at hc
  cases hc

theorem decodeColumn_encodeColumn {column : ColumnDef} (h : IsName column.name) :
    decodeColumn (encodeColumn column) = .ok column := by
  obtain ⟨name, dataType, primaryKey⟩ := column
  have hbar : '|' ∉ name.toList := h.notMem (by decide)
  have hparts : ∀ kind flag : String, '|' ∉ kind.toList → '|' ∉ flag.toList →
      split '|' (name ++ "|" ++ kind ++ "|" ++ flag) = [name, kind, flag] := by
    intro kind flag hkind hflag
    have hassoc : name ++ "|" ++ kind ++ "|" ++ flag =
        name ++ String.singleton '|' ++ (kind ++ String.singleton '|' ++ flag) := by
      simp only [String.append_assoc]
      rfl
    rw [hassoc, split_append hbar, split_append hkind, split_of_notMem hflag]
  cases dataType <;> cases primaryKey <;>
    simp only [encodeColumn, decodeColumn, if_true, Bool.false_eq_true, if_false] <;>
    rw [hparts _ _ (by decide) (by decide)] <;> rfl

theorem mapM_decodeColumn {columns : List ColumnDef} (h : ∀ column ∈ columns, IsName column.name) :
    (columns.map encodeColumn).mapM decodeColumn = .ok columns := by
  induction columns with
  | nil => rfl
  | cons column columns ih =>
    rw [List.map_cons, List.mapM_cons, decodeColumn_encodeColumn (h column List.mem_cons_self),
      ih fun c hc => h c (List.mem_cons_of_mem _ hc)]
    rfl

/-- A schema that has passed its checks, and whose names are words. -/
structure Schema.Valid (schema : Schema) : Prop where
  validated : schema.validate = .ok ()
  name : IsName schema.name
  columns : ∀ column ∈ schema.columns, IsName column.name

/-- What `validate` checks. -/
theorem Schema.validate_eq_ok {schema : Schema} {u : Unit} : schema.validate = .ok u ↔
    schema.columns ≠ [] ∧ (schema.columns.filter ColumnDef.primaryKey).length = 1 ∧
      Schema.distinctNames [] schema.columns = true := by
  unfold Schema.validate
  split_ifs with h1 h2 h3
  · simp [input, Res.fail, List.isEmpty_iff.1 h1]
  · simp [input, Res.fail, h2]
  · simp [List.isEmpty_iff.not.1 h1, not_not.1 h2, h3]
  · simp [input, Res.fail, h3]

theorem encodeColumn_line {column : ColumnDef} (h : IsName column.name) :
    encodeColumn column ≠ "" ∧ '\r' ∉ (encodeColumn column).toList ∧
      '\n' ∉ (encodeColumn column).toList := by
  have hr : '\r' ∉ column.name.toList := h.notMem (by decide)
  have hn : '\n' ∉ column.name.toList := h.notMem (by decide)
  obtain ⟨name, dataType, primaryKey⟩ := column
  refine ⟨fun he => ?_, ?_, ?_⟩
  · have hlist := congrArg String.toList he
    cases dataType <;> cases primaryKey <;> simp [encodeColumn] at hlist
  · cases dataType <;> cases primaryKey <;> simpa [encodeColumn] using hr
  · cases dataType <;> cases primaryKey <;> simpa [encodeColumn] using hn

/-- The columns decide whether a schema is read back; the name is not part of the entry. -/
theorem decodeSchema_of_columns {schema : Schema} (hvalidated : schema.validate = .ok ())
    (hcolumns : ∀ column ∈ schema.columns, IsName column.name) :
    decodeSchema schema.name (encodeSchema schema) = .ok schema := by
  have hne : schema.columns.map encodeColumn ≠ [] :=
    mt List.map_eq_nil_iff.1 (Schema.validate_eq_ok.1 hvalidated).1
  have hlines : lines (encodeSchema schema) = schema.columns.map encodeColumn := by
    refine lines_intercalate hne fun line hline => ?_
    obtain ⟨column, hc, rfl⟩ := List.mem_map.1 hline
    exact encodeColumn_line (hcolumns column hc)
  rw [decodeSchema, hlines, mapM_decodeColumn hcolumns]
  simp only [Res.ok_bind, hvalidated]
  rfl

/-- **A schema is read back as encoded.** -/
theorem decodeSchema_encodeSchema {schema : Schema} (h : schema.Valid) :
    decodeSchema schema.name (encodeSchema schema) = .ok schema :=
  decodeSchema_of_columns h.validated h.columns

/-! ## Columns by name -/

theorem Schema.distinctNames_iff {earlier columns : List ColumnDef} :
    Schema.distinctNames earlier columns = true ↔ (columns.map ColumnDef.name).Nodup ∧
      ∀ column ∈ columns, ∀ e ∈ earlier, e.name ≠ column.name := by
  induction columns generalizing earlier with
  | nil => simp [Schema.distinctNames]
  | cons column columns ih =>
    simp only [Schema.distinctNames, Bool.and_eq_true, Bool.not_eq_true', List.any_eq_false, beq_iff_eq,
      ih, List.mem_append, List.mem_singleton, List.map_cons, List.nodup_cons, List.mem_map, not_exists,
      not_and, List.forall_mem_cons]
    constructor
    · rintro ⟨h1, h2, h3⟩
      exact ⟨⟨fun c hc he => h3 c hc column (Or.inr rfl) he.symm, h2⟩, h1,
        fun c hc e he => h3 c hc e (Or.inl he)⟩
    · rintro ⟨⟨h1, h2⟩, h3, h4⟩
      refine ⟨h3, h2, fun c hc e he => ?_⟩
      rcases he with he | rfl
      · exact h4 c hc e he
      · exact fun heq => h1 c hc heq.symm

/-- **A column is found by its name.** -/
theorem Schema.Valid.columnIndex {schema : Schema} (h : schema.Valid) {i : ℕ} {column : ColumnDef}
    (hi : schema.columns[i]? = some column) : schema.columnIndex column.name = some i := by
  obtain ⟨-, -, hdistinct⟩ := Schema.validate_eq_ok.1 h.validated
  obtain ⟨hnodup, -⟩ := Schema.distinctNames_iff.1 hdistinct
  obtain ⟨hlt, rfl⟩ := List.getElem?_eq_some_iff.1 hi
  refine List.findIdx?_eq_some_iff_getElem.2 ⟨hlt, beq_self_eq_true _, fun j hj => ?_⟩
  have hne := List.pairwise_iff_getElem.1 hnodup j i (by simp; omega) (by simpa using hlt) hj
  simpa using hne

end NutDb.Sql
