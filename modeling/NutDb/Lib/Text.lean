/-
  Text that is taken apart at separators, and decimal numbers.

  `splitWhitespace` drops empty pieces and `split` keeps them; the lemmas say
  what a text that was put together from fields is taken apart into.
-/
import NutDb.Lib.Outcome

namespace Lib

/-! ## Splitting -/

/-- The characters with the Unicode property `White_Space`. -/
def isWhitespace (c : Char) : Bool :=
  let n := c.toNat
  (9 ≤ n && n ≤ 13) || n == 0x20 || n == 0x85 || n == 0xA0 || n == 0x1680 ||
    (0x2000 ≤ n && n ≤ 0x200A) || n == 0x2028 || n == 0x2029 || n == 0x202F || n == 0x205F ||
    n == 0x3000

/-- `str::split_whitespace`: the non-empty pieces between white space. -/
def splitWhitespace (s : String) : List String :=
  ((s.toList.splitOnP isWhitespace).map String.ofList).filter fun w => decide (w ≠ "")

/-- `str::split`: all pieces between separators, the empty ones too. -/
def split (sep : Char) (s : String) : List String := (s.toList.splitOn sep).map String.ofList

/-- `str::splitn`: at most `n` pieces, the last one with the rest of the text. -/
def splitn (sep : Char) : ℕ → String → List String
  | 0, _ => []
  | 1, s => [s]
  | n + 2, s =>
    let piece := s.toList.takeWhile (· != sep)
    match s.toList.drop piece.length with
    | [] => [s]
    | _ :: rest => String.ofList piece :: splitn sep (n + 1) (String.ofList rest)

/-- `str::strip_prefix`. -/
def stripPrefix (start s : String) : Option String :=
  if s.toList.take start.length = start.toList then some (String.ofList (s.toList.drop start.length))
  else none

/-- One `\n` ends each line but the last; a `\r` before it belongs to it. -/
def stripLines : List String → List String
  | [] => []
  | [last] => if last = "" then [] else [last]
  | line :: next :: rest =>
    (if line.toList.getLast? = some '\r' then String.ofList line.toList.dropLast else line) ::
      stripLines (next :: rest)

/-- `str::lines`. -/
def lines (s : String) : List String := stripLines (split '\n' s)

/-- A text without white space. -/
def IsWord (s : String) : Prop := ∀ c ∈ s.toList, isWhitespace c = false

section Split
variable {s t : String} {sep : Char}

theorem splitWhitespace_word (h : IsWord s) : splitWhitespace s = if s = "" then [] else [s] := by
  rw [splitWhitespace, List.splitOnP_eq_singleton h, List.map_singleton, String.ofList_toList]
  by_cases hs : s = ""
  · rw [if_pos hs, List.filter_cons_of_neg (by simp [hs]), List.filter_nil]
  · rw [if_neg hs, List.filter_cons_of_pos (by simp [hs]), List.filter_nil]

/-- The pieces before a separator and those behind it. -/
theorem splitWhitespace_append (s t : String) :
    splitWhitespace (s ++ " " ++ t) = splitWhitespace s ++ splitWhitespace t := by
  have hlist : (s ++ " " ++ t).toList = s.toList ++ ' ' :: t.toList := by simp
  rw [splitWhitespace, hlist, List.splitOnP_append_cons _ _ (by decide), List.map_append,
    List.filter_append]
  rfl

theorem split_of_notMem (h : sep ∉ s.toList) : split sep s = [s] := by
  rw [split, List.splitOn_eq_singleton h, List.map_singleton, String.ofList_toList]

theorem split_append (h : sep ∉ s.toList) (t : String) :
    split sep (s ++ String.singleton sep ++ t) = s :: split sep t := by
  have hlist : (s ++ String.singleton sep ++ t).toList = s.toList ++ sep :: t.toList := by simp
  rw [split, hlist, List.splitOn_append_cons_self_of_not_mem h, List.map_cons, String.ofList_toList]
  rfl

/-- The fields that a text was joined from. -/
theorem split_intercalate {fields : List String} (hne : fields ≠ [])
    (h : ∀ field ∈ fields, sep ∉ field.toList) :
    split sep ((String.singleton sep).intercalate fields) = fields := by
  induction fields with
  | nil => exact absurd rfl hne
  | cons field fields ih =>
    cases fields with
    | nil => rw [String.intercalate_singleton, split_of_notMem (h field List.mem_cons_self)]
    | cons next fields =>
      rw [String.intercalate_cons_cons, split_append (h field List.mem_cons_self),
        ih (List.cons_ne_nil _ _) fun f hf => h f (List.mem_cons_of_mem _ hf)]

/-- The pieces of a text, joined again. -/
theorem intercalate_split (sep : Char) (s : String) : (String.singleton sep).intercalate (split sep s) = s := by
  rw [← String.toList_inj, String.toList_intercalate, split, List.map_map, String.toList_singleton]
  have hmap : (s.toList.splitOn sep).map (String.toList ∘ String.ofList) = s.toList.splitOn sep := by
    simp [Function.comp_def]
  rw [hmap, List.intercalate_splitOn]

theorem stripLines_eq {fields : List String} (h : ∀ field ∈ fields, field ≠ "" ∧ '\r' ∉ field.toList) :
    stripLines fields = fields := by
  induction fields with
  | nil => rfl
  | cons field fields ih =>
    obtain ⟨hne, hr⟩ := h field List.mem_cons_self
    cases fields with
    | nil => rw [stripLines, if_neg hne]
    | cons next fields =>
      have hlast : ¬ field.toList.getLast? = some '\r' := fun hl => hr (List.mem_of_getLast? hl)
      rw [stripLines, if_neg hlast, ih fun f hf => h f (List.mem_cons_of_mem _ hf)]

/-- The lines that a text was joined from. -/
theorem lines_intercalate {fields : List String} (hne : fields ≠ [])
    (h : ∀ field ∈ fields, field ≠ "" ∧ '\r' ∉ field.toList ∧ '\n' ∉ field.toList) :
    lines ("\n".intercalate fields) = fields := by
  have hsplit : split '\n' ("\n".intercalate fields) = fields :=
    split_intercalate hne fun field hf => (h field hf).2.2
  rw [lines, hsplit, stripLines_eq fun field hf => ⟨(h field hf).1, (h field hf).2.1⟩]

theorem splitn_append (n : ℕ) (h : sep ∉ s.toList) (t : String) :
    splitn sep (n + 2) (s ++ String.singleton sep ++ t) = s :: splitn sep (n + 1) t := by
  have hlist : (s ++ String.singleton sep ++ t).toList = s.toList ++ sep :: t.toList := by simp
  have hpiece : (s.toList ++ sep :: t.toList).takeWhile (· != sep) = s.toList := by
    rw [List.takeWhile_append_of_pos (by intro c hc; simpa using fun (e : c = sep) => h (e ▸ hc))]
    simp
  rw [splitn, hlist, hpiece, List.drop_left]
  simp only [String.ofList_toList]

theorem stripPrefix_append (start s : String) : stripPrefix start (start ++ s) = some s := by
  unfold stripPrefix
  rw [String.toList_append, ← String.length_toList, List.take_left, if_pos rfl, List.drop_left,
    String.ofList_toList]

end Split

/-! ## Characters and bytes -/

/-- The bytes of a text are those of its characters. -/
theorem utf8_ofList (cs : List Char) : utf8 (String.ofList cs) = cs.flatMap String.utf8EncodeChar := by
  rw [utf8, String.toByteArray_ofList, List.utf8Encode]
  simp

theorem utf8_append (s t : String) : utf8 (s ++ t) = utf8 s ++ utf8 t := by
  simp [utf8]

theorem utf8EncodeChar_ascii {n : ℕ} (h : n < 128) :
    String.utf8EncodeChar (Char.ofNat n) = [UInt8.ofNat n] := by
  have hall : ∀ n < 128, String.utf8EncodeChar (Char.ofNat n) = [UInt8.ofNat n] := by decide
  exact hall n h

/-- A character whose first byte is ASCII is that byte. -/
theorem eq_of_utf8EncodeChar {c : Char} {b : UInt8} {rest : Bytes}
    (h : String.utf8EncodeChar c = b :: rest) (hb : b.toNat < 128) : c = Char.ofNat b.toNat := by
  have hbytes : (String.utf8EncodeChar c).toByteArray ++ ByteArray.empty =
      (String.utf8EncodeChar (Char.ofNat b.toNat)).toByteArray ++ rest.toByteArray := by
    rw [h, utf8EncodeChar_ascii hb, UInt8.ofNat_toNat, ← List.toByteArray_append]
    simp
  have hc := ByteArray.utf8DecodeChar?_utf8EncodeChar_append (b := ByteArray.empty) (c := c)
  rw [hbytes, ByteArray.utf8DecodeChar?_utf8EncodeChar_append] at hc
  exact (Option.some.inj hc).symm

/-- The bytes of an ASCII text. -/
theorem utf8_ascii {cs : List Char} (h : ∀ c ∈ cs, c.toNat < 128) :
    utf8 (String.ofList cs) = cs.map fun c => UInt8.ofNat c.toNat := by
  rw [utf8_ofList]
  induction cs with
  | nil => rfl
  | cons c cs ih =>
    have hc : String.utf8EncodeChar c = [UInt8.ofNat c.toNat] := by
      have hchar := utf8EncodeChar_ascii (h c List.mem_cons_self)
      rwa [Char.ofNat_toNat] at hchar
    rw [List.flatMap_cons, hc, ih fun c' hc' => h c' (List.mem_cons_of_mem _ hc')]
    rfl

/-- The text with the given ASCII bytes. -/
theorem ofUtf8_ascii {bytes : Bytes} (h : ∀ b ∈ bytes, b.toNat < 128) :
    ofUtf8 bytes = some (String.ofList (bytes.map fun b => Char.ofNat b.toNat)) := by
  have hutf8 : utf8 (String.ofList (bytes.map fun b => Char.ofNat b.toNat)) = bytes := by
    rw [utf8_ofList]
    induction bytes with
    | nil => rfl
    | cons b bytes ih =>
      rw [List.map_cons, List.flatMap_cons, utf8EncodeChar_ascii (h b List.mem_cons_self),
        ih fun b' hb' => h b' (List.mem_cons_of_mem _ hb'), UInt8.ofNat_toNat]
      rfl
  rw [← hutf8, ofUtf8_utf8, hutf8]

/-! ## Decimal numbers -/

/-- The number that decimal digits stand for. -/
def ofDigits (digits : List Char) : Option ℕ :=
  if digits ≠ [] ∧ digits.all Char.isDigit = true then some (Nat.ofDigitChars 10 digits 0) else none

/-- `u64::from_str`: decimal digits, after a plus sign or not, that stand for a number in range. -/
def U64.parse (s : String) : Option U64 := do
  let n ← ofDigits (match s.toList with
    | '+' :: digits => digits
    | digits => digits)
  if h : n < 2 ^ 64 then some ⟨n, h⟩ else none

/-- The decimal digits of a number. -/
def U64.print (n : U64) : String := n.val.repr

section Repr
variable (n : ℕ)

theorem isDigit_repr {c : Char} (h : c ∈ n.repr.toList) : c.isDigit = true := by
  rw [Nat.toList_repr] at h
  exact Nat.isDigit_of_mem_toDigits (by norm_num) (by norm_num) h

theorem repr_ne_nil : n.repr.toList ≠ [] := by
  rw [Nat.toList_repr]
  exact Nat.toDigits_ne_nil

/-- The digits of a number, and they begin with a digit. -/
theorem exists_repr : ∃ c cs, n.repr.toList = c :: cs ∧ c.isDigit = true := by
  obtain ⟨c, cs, hcs⟩ := List.exists_cons_of_ne_nil (repr_ne_nil n)
  exact ⟨c, cs, hcs, isDigit_repr n (by rw [hcs]; exact List.mem_cons_self)⟩

theorem ofDigits_repr : ofDigits n.repr.toList = some n := by
  have hall : n.repr.toList.all Char.isDigit = true := List.all_eq_true.2 fun c hc => isDigit_repr n hc
  rw [ofDigits, if_pos ⟨repr_ne_nil n, hall⟩, Nat.toList_repr, Nat.ofDigitChars_ten_toDigits]

end Repr

section Decimal
variable (n : U64)

theorem U64.isDigit_print {c : Char} (h : c ∈ n.print.toList) : c.isDigit = true := isDigit_repr _ h

theorem U64.print_ne_nil : n.print.toList ≠ [] := repr_ne_nil _

theorem U64.print_ne_empty : n.print ≠ "" := by
  intro h
  exact U64.print_ne_nil n (by rw [h]; rfl)

/-- **A printed number is read back.** -/
@[simp] theorem U64.parse_print : U64.parse n.print = some n := by
  obtain ⟨c, cs, hcs, hc⟩ := exists_repr n.val
  have hdigits := ofDigits_repr n.val
  have hplus : c ≠ '+' := by
    rintro rfl
    exact absurd hc (by decide)
  unfold U64.parse U64.print
  rw [hcs] at hdigits ⊢
  split
  · rename_i digits heq
    exact absurd (List.cons.inj heq).1 hplus
  · rw [hdigits]
    exact dif_pos n.isLt

/-- The codes of the digits. -/
theorem toNat_of_isDigit {c : Char} (h : c.isDigit = true) : 48 ≤ c.toNat ∧ c.toNat ≤ 57 := by
  rw [Char.isDigit, Bool.and_eq_true, decide_eq_true_eq, decide_eq_true_eq] at h
  obtain ⟨h1, h2⟩ := h
  constructor
  · simpa [Char.le_def, UInt32.le_iff_toNat_le] using h1
  · simpa [Char.le_def, UInt32.le_iff_toNat_le] using h2

theorem isWhitespace_of_isDigit {c : Char} (h : c.isDigit = true) : isWhitespace c = false := by
  obtain ⟨h1, h2⟩ := toNat_of_isDigit h
  simp only [isWhitespace, Bool.or_eq_false_iff, Bool.and_eq_false_imp, decide_eq_true_eq,
    decide_eq_false_iff_not, beq_eq_false_iff_ne]
  omega

theorem U64.isWord_print : IsWord n.print := fun _ hc =>
  isWhitespace_of_isDigit (U64.isDigit_print n hc)

end Decimal

end Lib
