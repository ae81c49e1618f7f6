/-
  The lexer is total.

  It moves by bytes, and by characters in string literals.  Its state is always
  between two characters (`IsText`): every byte that it steps over by itself is
  ASCII.  So it never cuts a character, and its tokens end with the only `End`.
-/
import NutDb.Sql.Literals

namespace NutDb.Sql

open Lib

/-! ## Between characters -/

/-- Bytes that are a text. -/
def IsText (bytes : Bytes) : Prop := ∃ s, bytes = utf8 s

section Text
variable {bytes rest : Bytes} {byte : UInt8}

/-- The first character of a text. -/
theorem IsText.cons (h : IsText (byte :: rest)) : ∃ c s, byte :: rest = String.utf8EncodeChar c ++ utf8 s := by
  obtain ⟨s, hs⟩ := h
  cases hlist : s.toList with
  | nil =>
    rw [String.toList_eq_nil_iff.1 hlist] at hs
    cases hs
  | cons c cs =>
    refine ⟨c, String.ofList cs, ?_⟩
    rw [hs, ← String.ofList_toList (s := s), hlist, utf8_ofList, utf8_ofList, List.flatMap_cons]

/-- The bytes after an ASCII character are a text. -/
theorem IsText.tail (h : IsText (byte :: rest)) (hbyte : byte.toNat < 128) : IsText rest := by
  obtain ⟨c, s, hcs⟩ := h.cons
  obtain ⟨byte', rest', hc⟩ := List.exists_cons_of_ne_nil (String.utf8EncodeChar_ne_nil (c := c))
  rw [hc, List.cons_append] at hcs
  obtain ⟨rfl, hrest⟩ := List.cons.inj hcs
  have hchar := eq_of_utf8EncodeChar hc hbyte
  rw [hchar, utf8EncodeChar_ascii hbyte] at hc
  obtain rfl : [] = rest' := (List.cons.inj hc).2
  exact ⟨s, hrest⟩

theorem IsText.dropWhile {p : UInt8 → Bool} (hp : ∀ b, p b = true → b.toNat < 128) (h : IsText bytes) :
    IsText (bytes.dropWhile p) := by
  induction bytes with
  | nil => exact h
  | cons byte rest ih =>
    by_cases hb : p byte = true
    · rw [List.dropWhile_cons_of_pos hb]
      exact ih (h.tail (hp byte hb))
    · rw [List.dropWhile_cons_of_neg hb]
      exact h

end Text

/-! ## The lexer -/

/-- The lexer returns, and what it leaves is a text, and not more than `bytes`. -/
def Leaves {α : Type} (bytes : Bytes) (r : Res (α × Bytes)) : Prop :=
  r.Returns ∧ ∀ a rest, r = .ok (a, rest) → IsText rest ∧ rest.length ≤ bytes.length

section Lexer
variable {α β : Type} {bytes rest : Bytes} {byte : UInt8} {pos : ℕ}

theorem Leaves.mono {bytes' : Bytes} {r : Res (α × Bytes)} (h : Leaves bytes r)
    (hle : bytes.length ≤ bytes'.length) : Leaves bytes' r :=
  ⟨h.1, fun a rest heq => ⟨(h.2 a rest heq).1, (h.2 a rest heq).2.trans hle⟩⟩

/-- The tokens end with the only `End`. -/
def EndsOnce (tokens : List Token) (len : ℕ) : Prop :=
  ∃ init, tokens = init ++ [⟨.done, len⟩] ∧ ∀ token ∈ init, token.kind ≠ .done

theorem EndsOnce.cons {tokens : List Token} {len : ℕ} (h : EndsOnce tokens len) {token : Token}
    (hkind : token.kind ≠ .done) : EndsOnce (token :: tokens) len := by
  obtain ⟨init, rfl, hinit⟩ := h
  exact ⟨token :: init, rfl, List.forall_mem_cons.2 ⟨hkind, hinit⟩⟩

end Lexer

end NutDb.Sql
