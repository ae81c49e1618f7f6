/-
  What is left of statements that fail.

  A statement outside of a transaction has no effect when it fails, because its
  own transaction is aborted.  In an open transaction `UPDATE` and `DELETE` write
  row by row, and nothing takes back what was written before the row that fails.
  So a failed statement is without effect exactly if no row was written before
  (`unaffected_iff`).  A row that was changed once never gets its old value back:
  the following rows have other keys, and a key that one of them is moved to is
  free.
-/
import NutDb.Sql.Select
import NutDb.Sql.Transactions

namespace NutDb.Sql

open Lib Mvcc

/-! ## Loops over rows -/

section Loop
variable {schema : Schema} {filter : Option Expr} {body : String → Row → Act Tables Unit} {m : Tables}
  {rows : List (String × Row)}

/-- What the loop does with a row that the filter lets through, or does not. -/
theorem forMatching_cons (e : String × Row) (rows : List (String × Row)) (n : ℕ) :
    (forMatching schema filter body (e :: rows) n).run m =
      match matchesFilter filter e.2 schema with
      | .error fault => (.error fault, m)
      | .ok false => (forMatching schema filter body rows n).run m
      | .ok true => (body e.1 e.2 >>= fun _ => forMatching schema filter body rows (n + 1)).run m := by
  rw [forMatching]
  rcases matchesFilter filter e.2 schema with fault | kept
  · rfl
  · cases kept <;> rfl

/-- The rows that the loop skips, those that it writes, and those on which it stops. -/
structure Steps (schema : Schema) (filter : Option Expr) (body : String → Row → Act Tables Unit)
    (m : Tables) (rows : List (String × Row)) (idle written : String × Row → Prop) : Prop where
  skips : ∀ e ∈ rows, idle e → matchesFilter filter e.2 schema = .ok false ∨
    matchesFilter filter e.2 schema = .ok true ∧ (body e.1 e.2).run m = (.ok (), m)
  writes : ∀ e ∈ rows, written e → matchesFilter filter e.2 schema = .ok true ∧
    ∃ I : Tables → Prop, ¬ I m ∧ I ((body e.1 e.2).run m).2 ∧ (((body e.1 e.2).run m).1 = .ok () →
      ∀ e' ∈ rows, e'.1 ≠ e.1 → Act.Preserves I (body e'.1 e'.2))
  stops : ∀ e ∈ rows, ¬ idle e → ¬ written e → (∃ fault, matchesFilter filter e.2 schema = .error fault) ∨
    matchesFilter filter e.2 schema = .ok true ∧ ∃ fault, (body e.1 e.2).run m = (.error fault, m)

section Steps
variable {idle written : String × Row → Prop} {e : String × Row}

theorem Steps.tail (h : Steps schema filter body m (e :: rows) idle written) :
    Steps schema filter body m rows idle written := by
  refine ⟨fun e' he' => h.skips e' (List.mem_cons_of_mem _ he'), fun e' he' hwritten => ?_,
    fun e' he' => h.stops e' (List.mem_cons_of_mem _ he')⟩
  obtain ⟨hkept, I, hbefore, hafter, hkeeps⟩ := h.writes e' (List.mem_cons_of_mem _ he') hwritten
  exact ⟨hkept, I, hbefore, hafter, fun hok e₁ h₁ => hkeeps hok e₁ (List.mem_cons_of_mem _ h₁)⟩

theorem Steps.not_written (h : Steps schema filter body m rows idle written) (he : e ∈ rows)
    (hidle : idle e) : ¬ written e := by
  intro hwritten
  obtain ⟨hkept, I, hbefore, hafter, -⟩ := h.writes e he hwritten
  rcases h.skips e he hidle with hkept' | ⟨-, hbody⟩
  · rw [hkept] at hkept'
    cases hkept'
  · rw [hbody] at hafter
    exact hbefore hafter

end Steps

/-- A row is written before the loop stops. -/
def WritesFirst (idle written : String × Row → Prop) (rows : List (String × Row)) : Prop :=
  ∃ before e after, rows = before ++ e :: after ∧ (∀ e' ∈ before, idle e') ∧ written e

theorem writesFirst_cons {idle written : String × Row → Prop} {e : String × Row} :
    WritesFirst idle written (e :: rows) ↔
      written e ∨ idle e ∧ WritesFirst idle written rows := by
  constructor
  · rintro ⟨before, e', after, hrows, hbefore, hwritten⟩
    cases before with
    | nil =>
      cases hrows
      exact Or.inl hwritten
    | cons e'' before =>
      cases hrows
      exact Or.inr ⟨hbefore e List.mem_cons_self, before, e', after, rfl,
        fun e₁ h₁ => hbefore e₁ (List.mem_cons_of_mem _ h₁), hwritten⟩
  · rintro (hwritten | ⟨hidle, before, e', after, rfl, hbefore, hwritten⟩)
    · exact ⟨[], e, rows, rfl, by simp, hwritten⟩
    · refine ⟨e :: before, e', after, rfl, ?_, hwritten⟩
      rw [List.forall_mem_cons]
      exact ⟨hidle, hbefore⟩

/-- **A loop that fails** leaves the tables as they were exactly if it has written no row. -/
theorem forMatching_unchanged_iff {idle written : String × Row → Prop} (hsorted : SortedKeys rows)
    (hsteps : Steps schema filter body m rows idle written) {n : ℕ} {fault : Fault}
    (hfail : ((forMatching schema filter body rows n).run m).1 = .error fault) :
    ((forMatching schema filter body rows n).run m).2 = m ↔ ¬ WritesFirst idle written rows := by
  induction rows generalizing n with
  | nil => cases hfail
  | cons e rows ih =>
    obtain ⟨hlt, hsorted'⟩ := sortedKeys_cons.1 hsorted
    have hnot := hsteps.not_written List.mem_cons_self
    have ih := fun n => ih (n := n) hsorted' hsteps.tail
    rw [writesFirst_cons]
    by_cases hidle : idle e
    · -- the row is skipped, or written as it is
      simp only [hidle, hnot hidle, true_and, false_or]
      rw [forMatching_cons] at hfail ⊢
      rcases hsteps.skips e List.mem_cons_self hidle with hkept | ⟨hkept, hbody⟩
      · simp only [hkept] at hfail ⊢
        exact ih n hfail
      · simp only [hkept, Act.run_bind_ok hbody] at hfail ⊢
        exact ih (n + 1) hfail
    by_cases hwritten : written e
    · -- what was written stays
      obtain ⟨hkept, I, hbefore, hafter, hkeeps⟩ := hsteps.writes e List.mem_cons_self hwritten
      have hend : I ((forMatching schema filter body (e :: rows) n).run m).2 := by
        rw [forMatching_cons]
        simp only [hkept]
        rcases hbody : (body e.1 e.2).run m with ⟨fault' | u, m'⟩
        · rw [hbody] at hafter
          rw [Act.run_bind_error hbody]
          exact hafter
        · rw [hbody] at hafter hkeeps
          rw [Act.run_bind_ok hbody]
          refine forMatching_preserves (fun e' he' => ?_) (n + 1) m' hafter
          exact hkeeps rfl e' (List.mem_cons_of_mem _ he') (hlt e' he').ne'
      constructor
      · intro heq
        rw [heq] at hend
        exact absurd hend hbefore
      · intro h
        exact absurd (Or.inl hwritten) h
    · -- the loop stops here
      have hstop : ((forMatching schema filter body (e :: rows) n).run m).2 = m := by
        rw [forMatching_cons]
        rcases hsteps.stops e List.mem_cons_self hidle hwritten with ⟨fault', hkept⟩ | ⟨hkept, fault', hbody⟩
        · simp only [hkept]
        · simp only [hkept, Act.run_bind_error hbody]
      simp [hstop, hidle, hwritten]

end Loop

/-! ## `DELETE` -/

section Tables
variable {schemas : String → Option Schema} {m : Tables} {schema : Schema} {table : String}

/-- The rows of a table are deleted one by one. -/
theorem delete_steps (h : Sound schemas m) (hs : schemas table = some schema) (filter : Option Expr) :
    Steps schema filter (fun key _ => Txn.delete key) m (rowsOf m schema)
      (fun e => matchesFilter filter e.2 schema = .ok false)
      (fun e => matchesFilter filter e.2 schema = .ok true) := by
  refine ⟨fun e _ hidle => Or.inl hidle, fun e he hwritten => ?_, fun e _ hidle hwritten => ?_⟩
  · refine ⟨hwritten, fun m' => m'.get e.1 = none, ?_, ?_, fun _ e' _ hne m' hm' => ?_⟩
    · simp [((mem_rowsOf h hs).1 he).2]
    · rw [delete_run, refusal_eq_none.2 (h.deletable hs he)]
      simp
    · rw [delete_run]
      rcases refusal (.delete 0 e'.1) with _ | fault
      · simp [hm']
      · exact hm'
  · rcases hkept : matchesFilter filter e.2 schema with fault | kept
    · exact Or.inl ⟨fault, rfl⟩
    · cases kept with
      | false => exact absurd hkept hidle
      | true => exact absurd hkept hwritten

/-! ## `UPDATE` -/

section Assign
variable {assignments : List (String × Value)} {row row' other other' : Row} {i : ℕ}

theorem assignRow_cons {column : String} {value : Value}
    (h : assignRow schema ((column, value) :: assignments) row = .ok row') :
    ∃ j, namedColumn schema column = .ok j ∧ j < row.length ∧
      assignRow schema assignments (row.set j value) = .ok row' := by
  obtain ⟨j, hj, h⟩ := Res.bind_eq_ok.1 h
  obtain ⟨definition, hdef, h⟩ := Res.bind_eq_ok.1 h
  obtain ⟨u, htype, h⟩ := Res.bind_eq_ok.1 h
  obtain ⟨row₁, hset, h⟩ := Res.bind_eq_ok.1 h
  unfold Res.setAt at hset
  split_ifs at hset with hlt
  cases hset
  exact ⟨j, hj, hlt, h⟩

/-- Assignments to two rows: what a column has afterwards is what it had, or the same in both. -/
theorem assignRow_column (h : assignRow schema assignments row = .ok row')
    (h' : assignRow schema assignments other = .ok other') (i : ℕ) :
    row'[i]? = row[i]? ∧ other'[i]? = other[i]? ∨ row'[i]? = other'[i]? := by
  induction assignments generalizing row other with
  | nil =>
    cases h
    cases h'
    exact Or.inl ⟨rfl, rfl⟩
  | cons assignment assignments ih =>
    obtain ⟨column, value⟩ := assignment
    obtain ⟨j, hj, hlt, h⟩ := assignRow_cons h
    obtain ⟨j', hj', hlt', h'⟩ := assignRow_cons h'
    obtain rfl : j = j' := Except.ok.inj (hj.symm.trans hj')
    rcases ih h h' with ⟨h1, h2⟩ | heq
    · rw [h1, h2]
      by_cases hij : j = i
      · subst hij
        exact Or.inr (by simp [hlt, hlt'])
      · exact Or.inl ⟨by simp [hij], by simp [hij]⟩
    · exact Or.inr heq

/-- So two rows that are both moved get the same key. -/
theorem rowKey_assigned (hp : ∃ i column, schema.Primary i column) {key key' otherKey' : String}
    (hrow : rowKey schema row = .ok key) (h : assignRow schema assignments row = .ok row')
    (hrow' : rowKey schema row' = .ok key') (hne : key' ≠ key)
    (ho : assignRow schema assignments other = .ok other') (hother' : rowKey schema other' = .ok otherKey') :
    otherKey' = key' := by
  obtain ⟨i, column, hp⟩ := hp
  rcases assignRow_column h ho i with ⟨hsame, -⟩ | hsame
  · rw [rowKey_congr hp.index hsame, hrow] at hrow'
    exact absurd (Except.ok.inj hrow').symm hne
  · rw [rowKey_congr hp.index hsame, hother'] at hrow'
    exact Except.ok.inj hrow'

end Assign

/-- `UPDATE` skips the row, or would write it as it is. -/
def UpdateIdle (schema : Schema) (assignments : List (String × Value)) (filter : Option Expr)
    (e : String × Row) : Prop :=
  matchesFilter filter e.2 schema = .ok false ∨
    matchesFilter filter e.2 schema = .ok true ∧ assignRow schema assignments e.2 = .ok e.2

/-- `UPDATE` changes the row: nothing is wrong with the new row, and its key, if it is another one, is
    free. -/
def UpdateWritten (free : String → Prop) (schema : Schema) (assignments : List (String × Value))
    (filter : Option Expr) (e : String × Row) : Prop :=
  matchesFilter filter e.2 schema = .ok true ∧ ∃ row' key', assignRow schema assignments e.2 = .ok row' ∧
    row' ≠ e.2 ∧ rowKey schema row' = .ok key' ∧
    (key' = e.1 → (TxnRecord.set 0 key' (encodeRow row')).Loggable) ∧ (key' ≠ e.1 → free key')

section Update
variable {assignments : List (String × Value)} {filter : Option Expr} {key : String} {row : Row}
  {out : Res Unit × Tables}

theorem encodeRow_injective (hv : schema.Valid) {row' : Row} (hrow : Matches schema row)
    (hrow' : Matches schema row') (heq : encodeRow row = encodeRow row') : row = row' := by
  have hne := (Schema.validate_eq_ok.1 hv.validated).1
  have hdec := decodeRow_encodeRow hrow hne
  rw [heq, decodeRow_encodeRow hrow' hne] at hdec
  exact (Except.ok.inj hdec).symm

theorem IsRow.key_unique {key' : String} (h : IsRow schema key row) (h' : IsRow schema key' row) :
    key' = key := Except.ok.inj (h'.key.symm.trans h.key)

/-- A row that stays as it is is written without effect. -/
theorem Updated.idle (h : Updated schema assignments key row m out) (hrow : IsRow schema key row)
    (hassign : assignRow schema assignments row = .ok row) (hget : m.get key = some (encodeRow row))
    (hl : (TxnRecord.set 0 key (encodeRow row)).Loggable) : out = (.ok (), m) := by
  have hunique : ∀ {row' key'}, assignRow schema assignments row = .ok row' → IsRow schema key' row' →
      row' = row ∧ key' = key := by
    intro row' key' h' hrow'
    obtain rfl : row = row' := Except.ok.inj (hassign.symm.trans h')
    exact ⟨rfl, hrow.key_unique hrow'⟩
  cases h with
  | refused hno => exact absurd hl ((hno row key hassign hrow).1 rfl)
  | replaced h' hrow' _ =>
    obtain ⟨rfl, -⟩ := hunique h' hrow'
    rw [SortedMap.insert_of_get hget]
  | moved h' hrow' hne _ _ => exact absurd (hunique h' hrow').2 hne
  | lost h' hrow' hne _ _ => exact absurd (hunique h' hrow').2 hne

/-- A row that is neither skipped nor written is refused. -/
theorem Updated.stops (h : Updated schema assignments key row m out) (hrow : IsRow schema key row)
    (hsame : assignRow schema assignments row ≠ .ok row)
    (hnot : ¬ ∃ row' key', assignRow schema assignments row = .ok row' ∧ row' ≠ row ∧
      rowKey schema row' = .ok key' ∧ (key' = key → (TxnRecord.set 0 key' (encodeRow row')).Loggable) ∧
      (key' ≠ key → m.get key' = none)) : ∃ fault, out = (.error fault, m) := by
  have hchanged : ∀ {row'}, assignRow schema assignments row = .ok row' → row' ≠ row := by
    rintro row' h' rfl
    exact hsame h'
  cases h with
  | refused _ => exact ⟨_, rfl⟩
  | replaced h' hrow' hl =>
    exact (hnot ⟨_, _, h', hchanged h', hrow'.key, fun _ => hl, fun hne => absurd rfl hne⟩).elim
  | moved h' hrow' hne hfree _ =>
    exact (hnot ⟨_, _, h', hchanged h', hrow'.key, fun heq => absurd heq hne, fun _ => hfree⟩).elim
  | lost h' hrow' hne hfree _ =>
    exact (hnot ⟨_, _, h', hchanged h', hrow'.key, fun heq => absurd heq hne, fun _ => hfree⟩).elim

/-- What another row does not change: the entry of a key that is there and not its own. -/
theorem Updated.get_some {k text : String} (h : Updated schema assignments key row m out) (hk : k ≠ key)
    (hget : m.get k = some text) : out.2.get k = some text := by
  have hne : ∀ {key'}, m.get key' = none → k ≠ key' := by
    rintro key' hnone rfl
    exact nomatch hnone.symm.trans hget
  cases h with
  | refused _ => exact hget
  | replaced _ _ _ => simp [hk, hget]
  | moved _ _ _ hfree _ => simp [hk, hne hfree, hget]
  | lost _ _ _ _ _ => simp [hk, hget]

/-- When the key to which rows are moved is taken, no row is moved any more. -/
theorem Updated.get_none {k k' : String} (h : Updated schema assignments key row m out) (hk : k ≠ key)
    (hget : m.get k = none) (htaken : (m.get k').isSome = true)
    (hkey : ∀ row' key', assignRow schema assignments row = .ok row' → IsRow schema key' row' →
      key' ≠ key → key' = k') : out.2.get k = none ∧ (out.2.get k').isSome = true := by
  have hmoved : ∀ {row' key'}, assignRow schema assignments row = .ok row' → IsRow schema key' row' →
      key' ≠ key → m.get key' ≠ none := by
    intro row' key' h' hrow' hne hnone
    rw [← hkey row' key' h' hrow' hne, hnone] at htaken
    cases htaken
  cases h with
  | refused _ => exact ⟨hget, htaken⟩
  | replaced _ _ _ =>
    refine ⟨by simp [hk, hget], ?_⟩
    rw [SortedMap.get_insert]
    split_ifs
    · rfl
    · exact htaken
  | moved h' hrow' hne hfree _ => exact absurd hfree (hmoved h' hrow' hne)
  | lost h' hrow' hne hfree _ => exact absurd hfree (hmoved h' hrow' hne)

end Update

/-- The rows of a table are updated one by one. -/
theorem update_steps (h : Sound schemas m) (hs : schemas table = some schema)
    (assignments : List (String × Value)) (filter : Option Expr) :
    Steps schema filter (updateRow schema assignments) m (rowsOf m schema)
      (UpdateIdle schema assignments filter)
      (UpdateWritten (fun key => m.get key = none) schema assignments filter) := by
  have hv := (h.valid hs).1
  have hcases : ∀ e ∈ rowsOf m schema, ∀ m', Updated schema assignments e.1 e.2 m'
      ((updateRow schema assignments e.1 e.2 : Act Tables Unit).run m') := fun e he m' =>
    updateRow_cases assignments ((mem_rowsOf h hs).1 he).1 (h.deletable hs he)
  refine ⟨fun e he hidle => ?_, fun e he hwritten => ?_, fun e he hidle hwritten => ?_⟩
  · rcases hidle with hkept | ⟨hkept, hassign⟩
    · exact Or.inl hkept
    · obtain ⟨hrow, hget⟩ := (mem_rowsOf h hs).1 he
      exact Or.inr ⟨hkept, (hcases e he m).idle hrow hassign hget (h.logged hget)⟩
  · obtain ⟨hkept, row', key', hassign, hchanged, hkey', hlog, hfree⟩ := hwritten
    refine ⟨hkept, ?_⟩
    obtain ⟨hrow, hget⟩ := (mem_rowsOf h hs).1 he
    have hrow' : IsRow schema key' row' := ⟨assignRow_matches hrow.fits hassign, hkey'⟩
    have hunique : ∀ {row₁ key₁}, assignRow schema assignments e.2 = .ok row₁ → IsRow schema key₁ row₁ →
        row' = row₁ ∧ key' = key₁ := by
      intro row₁ key₁ h₁ hrow₁
      obtain rfl : row' = row₁ := Except.ok.inj (hassign.symm.trans h₁)
      exact ⟨rfl, hrow₁.key_unique hrow'⟩
    have hout := hcases e he m
    generalize (updateRow schema assignments e.1 e.2 : Act Tables Unit).run m = out at hout
    cases hout with
    | refused hno =>
      obtain ⟨h1, h2⟩ := hno row' key' hassign hrow'
      by_cases heq : key' = e.1
      · exact absurd (heq ▸ hlog heq) (h1 heq)
      · exact absurd (hfree heq) (h2 heq)
    | replaced h₁ hrow₁ _ =>
      obtain ⟨rfl, -⟩ := hunique h₁ hrow₁
      refine ⟨fun m' => m'.get e.1 = some (encodeRow row'), fun hsame => hchanged ?_, by simp,
        fun _ e' he' hne m' hm' => (hcases e' he' m').get_some hne.symm hm'⟩
      exact encodeRow_injective hv hrow'.fits hrow.fits (Option.some.inj (hsame.symm.trans hget))
    | moved h₁ hrow₁ hne _ _ =>
      obtain ⟨rfl, rfl⟩ := hunique h₁ hrow₁
      refine ⟨fun m' => m'.get e.1 = none ∧ (m'.get key').isSome = true, ?_, ?_, ?_⟩
      · simp [hget]
      · simp [Ne.symm hne]
      · intro _ e' he' hne' m' hm'
        refine (hcases e' he' m').get_none hne'.symm hm'.1 hm'.2 fun row₂ key₂ h₂ hrow₂ _ => ?_
        exact rowKey_assigned hv.primary hrow.key hassign hkey' hne h₂ hrow₂.key
    | lost _ _ _ _ _ =>
      exact ⟨fun m' => m'.get e.1 = none, by simp [hget], by simp, fun hok => (nomatch hok)⟩
  · rcases hkept : matchesFilter filter e.2 schema with fault | kept
    · exact Or.inl ⟨fault, rfl⟩
    · cases kept with
      | false => exact absurd (Or.inl hkept) hidle
      | true =>
        refine Or.inr ⟨rfl, (hcases e he m).stops ((mem_rowsOf h hs).1 he).1 ?_ ?_⟩
        · exact fun hassign => hidle (Or.inr ⟨hkept, hassign⟩)
        · exact fun hex => hwritten ⟨hkept, hex⟩

/-! ## Statements on tables -/

variable {fault : Fault}

/-- A loop over the rows of a table, if there is one. -/
theorem onRows_unchanged_iff (h : Sound schemas m) {filter : Option Expr}
    {body : Schema → String → Row → Act Tables Unit} {idle written : Schema → String × Row → Prop}
    (hsteps : ∀ schema, schemas table = some schema →
      Steps schema filter (body schema) m (rowsOf m schema) (idle schema) (written schema))
    (hfail : ((loadSchema table >>= fun schema => allRows schema >>= fun rows =>
      forMatching schema filter (body schema) rows 0 : Act Tables SqlResult).run m).1 = .error fault) :
    ((loadSchema table >>= fun schema => allRows schema >>= fun rows =>
      forMatching schema filter (body schema) rows 0 : Act Tables SqlResult).run m).2 = m ↔
      ¬ ∃ schema, schemas table = some schema ∧
        WritesFirst (idle schema) (written schema) (rowsOf m schema) := by
  have hload := loadSchema_run h table
  rcases hs : schemas table with _ | schema
  · rw [hs] at hload
    rw [Act.run_bind_error hload]
    simp
  · rw [hs] at hload
    rw [Act.run_bind_ok hload, Act.run_bind_ok (allRows_run h hs)] at hfail ⊢
    simp only [Option.some.injEq, exists_eq_left']
    exact forMatching_unchanged_iff (sortedKeys_rowsOf m schema) (hsteps schema hs) hfail

/-- The statement writes a row before it fails. -/
def WritesRow (schemas : String → Option Schema) (m : Tables) : Statement → Prop
  | .update table assignments filter => ∃ schema, schemas table = some schema ∧
      WritesFirst (UpdateIdle schema assignments filter)
        (UpdateWritten (fun key => m.get key = none) schema assignments filter) (rowsOf m schema)
  | .delete table filter => ∃ schema, schemas table = some schema ∧
      WritesFirst (fun e => matchesFilter filter e.2 schema = .ok false)
        (fun e => matchesFilter filter e.2 schema = .ok true) (rowsOf m schema)
  | _ => False

/-- **A statement that fails** leaves the tables as they were exactly if it has written no row. -/
theorem executeData_unchanged_iff (h : Sound schemas m) {s : Statement}
    (hfail : ((executeData s : Act Tables SqlResult).run m).1 = .error fault) :
    ((executeData s : Act Tables SqlResult).run m).2 = m ↔ ¬ WritesRow schemas m s := by
  cases s with
  | createTable table columns =>
    have hcases := createTable_cases h table columns
    refine ⟨fun _ hw => hw, fun _ => ?_⟩
    obtain ⟨fault', hrun⟩ | ⟨-, -, -, hrun⟩ := hcases
    · rw [executeData, hrun]
    · rw [executeData, hrun] at hfail
      cases hfail
  | insert table columns values =>
    have hcases := insert_cases h table columns values
    refine ⟨fun _ hw => hw, fun _ => ?_⟩
    obtain ⟨fault', hrun⟩ | ⟨_, _, _, -, -, -, -, hrun⟩ := hcases
    · rw [executeData, hrun]
    · rw [executeData, hrun] at hfail
      cases hfail
  | select select =>
    refine ⟨fun _ hw => hw, fun _ => ?_⟩
    exact preserves_selectWith (I := (· = m)) _ select m rfl
  | update table assignments filter =>
    exact onRows_unchanged_iff h (fun schema hs => update_steps h hs assignments filter) hfail
  | delete table filter => exact onRows_unchanged_iff h (fun schema hs => delete_steps h hs filter) hfail
  | explain select =>
    refine ⟨fun _ hw => hw, fun _ => ?_⟩
    exact preserves_explain (I := (· = m)) select m rfl
  | begin => exact ⟨fun _ hw => hw, fun _ => rfl⟩
  | commit => exact ⟨fun _ hw => hw, fun _ => rfl⟩
  | rollback => exact ⟨fun _ hw => hw, fun _ => rfl⟩

end Tables

/-! ## Following statements -/

/-- Two databases with the same tables, and ids for `k` more statements in both. -/
structure Alike (k : ℕ) (db db' : Database) : Prop where
  tables : db'.tables = db.tables
  active : db'.active = db.active
  commitTs : db'.commitTs = db.commitTs
  room : db.nextTxn.val + k < 2 ^ 64
  room' : db'.nextTxn.val + k < 2 ^ 64

section Alike
variable {k : ℕ} {db db' : Database}

theorem checkedAdd_of_room {n : U64} (h : n.val + (k + 1) < 2 ^ 64) :
    ∃ next : U64, n.checkedAdd 1 = some next ∧ next.val + k < 2 ^ 64 :=
  ⟨⟨n.val + 1, by omega⟩, U64.checkedAdd_eq_some.2 rfl, by simp only; omega⟩

theorem Alike.visible (h : Alike k db db') : db'.visible = db.visible := by
  rw [Database.visible, Database.visible, h.active, h.tables]

/-- A statement does the same with both. -/
theorem Alike.step (h : Alike (k + 1) db db') (s : Statement) :
    Alike k ((Database.executeStatement s).run db).2 ((Database.executeStatement s).run db').2 := by
  obtain ⟨tables, active, nextTxn, commitTs⟩ := db
  obtain ⟨tables', active', nextTxn', commitTs'⟩ := db'
  obtain rfl : tables = tables' := h.tables.symm
  obtain rfl : active = active' := h.active.symm
  obtain rfl : commitTs = commitTs' := h.commitTs.symm
  have hroom : nextTxn.val + (k + 1) < 2 ^ 64 := h.room
  have hroom' : nextTxn'.val + (k + 1) < 2 ^ 64 := h.room'
  obtain ⟨next, hnext, hr⟩ := checkedAdd_of_room hroom
  obtain ⟨next', hnext', hr'⟩ := checkedAdd_of_room hroom'
  -- the statement uses an id in both or in none
  have hsame : ∀ tables active commitTs, Alike k ⟨tables, active, nextTxn, commitTs⟩
      ⟨tables, active, nextTxn', commitTs⟩ := fun tables active commitTs =>
    ⟨rfl, rfl, rfl, show nextTxn.val + k < 2 ^ 64 by omega, show nextTxn'.val + k < 2 ^ 64 by omega⟩
  have hnew : ∀ tables active commitTs, Alike k ⟨tables, active, next, commitTs⟩
      ⟨tables, active, next', commitTs⟩ := fun tables active commitTs => ⟨rfl, rfl, rfl, hr, hr'⟩
  have htables : Alike k ((Database.withTransaction (executeData s)).run ⟨tables, active, nextTxn, commitTs⟩).2
      ((Database.withTransaction (executeData s)).run ⟨tables, active, nextTxn', commitTs⟩).2 := by
    simp only [Act.run, Database.withTransaction, Database.beginTxn, hnext, hnext']
    cases active with
    | some m => exact hsame _ _ _
    | none =>
      rcases hop : (executeData s : Act Tables SqlResult) tables with ⟨fault | result, m⟩
      · exact hnew _ _ _
      · simp only [Database.commitTxn]
        rcases commitTs.checkedAdd 1 with _ | ts
        · exact hnew _ _ _
        · exact hnew _ _ _
  cases s with
  | begin =>
    change Alike k (Database.beginStatement _).2 (Database.beginStatement _).2
    simp only [Database.beginStatement, Database.beginTxn, hnext, hnext']
    cases active with
    | some m => exact hsame _ _ _
    | none => exact hnew _ _ _
  | commit =>
    change Alike k (Database.commitStatement _).2 (Database.commitStatement _).2
    cases active with
    | none => exact hsame _ _ _
    | some m =>
      simp only [Database.commitStatement, Database.commitTxn]
      rcases commitTs.checkedAdd 1 with _ | ts
      · exact hsame _ _ _
      · exact hsame _ _ _
  | rollback =>
    change Alike k (Database.rollbackStatement _).2 (Database.rollbackStatement _).2
    cases active with
    | none => exact hsame _ _ _
    | some m => exact hsame _ _ _
  | createTable table columns => exact htables
  | insert table columns values => exact htables
  | select select => exact htables
  | update table assignments filter => exact htables
  | delete table filter => exact htables
  | explain select => exact htables

/-- Statements show the same of both. -/
theorem Alike.executeEach {e e' : SqlEngine} {statements : List Statement} (hrep : e.Rep db)
    (hrep' : e'.Rep db') (h : Alike statements.length db db') :
    (SqlEngine.executeEach statements e').visible = (SqlEngine.executeEach statements e).visible := by
  induction statements generalizing e e' db db' with
  | nil =>
    change e'.visible = e.visible
    rw [hrep'.visible, hrep.visible, h.visible]
  | cons s statements ih =>
    exact ih (executeStatement_simulates s e db hrep).2 (executeStatement_simulates s e' db' hrep').2
      (h.step s)

end Alike

/-! ## The engine -/

/-- The second engine shows what the first one does, also after a `COMMIT`, and after any other
    statements for which there are ids left. -/
structure Unaffected (e e' : SqlEngine) : Prop where
  now : e'.visible = e.visible
  committed : ((SqlEngine.executeStatement .commit).run e').2.visible =
    ((SqlEngine.executeStatement .commit).run e).2.visible
  later : ∀ statements : List Statement, e.inner.nextTxn.val + 1 + statements.length < 2 ^ 64 →
    (SqlEngine.executeEach statements e').visible = (SqlEngine.executeEach statements e).visible

theorem unaffected_of_tables {e e' : SqlEngine} {db db' : Database} (hrep : e.Rep db) (hrep' : e'.Rep db')
    (htables : db'.tables = db.tables) (hactive : db'.active = db.active)
    (hts : db'.commitTs = db.commitTs) (hnext : db'.nextTxn.val ≤ db.nextTxn.val + 1) : Unaffected e e' := by
  refine ⟨?_, ?_, fun statements hroom => ?_⟩
  · rw [hrep'.visible, hrep.visible, Database.visible, Database.visible, hactive, htables]
  · have hc := (executeStatement_simulates .commit e db hrep).2.visible
    have hc' := (executeStatement_simulates .commit e' db' hrep').2.visible
    rw [hc, hc']
    obtain ⟨tables, active, nextTxn, commitTs⟩ := db
    obtain ⟨tables', active', nextTxn', commitTs'⟩ := db'
    obtain rfl : tables' = tables := htables
    obtain rfl : active' = active := hactive
    obtain rfl : commitTs' = commitTs := hts
    change (Database.commitStatement _).2.visible.entries = (Database.commitStatement _).2.visible.entries
    cases active' with
    | none => rfl
    | some m =>
      simp only [Database.commitStatement, Database.commitTxn]
      rcases commitTs'.checkedAdd 1 with _ | ts
      · rfl
      · rfl
  · rw [hrep.nextTxn] at hroom
    exact Alike.executeEach hrep hrep' ⟨htables, hactive, hts, by omega, by omega⟩

/-- The rows of a table are determined by the entries. -/
theorem TableRows.unique {entries : List (String × String)} {schema : Schema}
    {rows rows' : List (String × Row)} (h : TableRows entries schema rows)
    (h' : TableRows entries schema rows') : rows = rows' := by
  refine sortedKeys_ext h.sorted h'.sorted fun key => Option.ext fun row => ?_
  constructor
  · intro hrow
    exact lookup_of_mem h'.sorted ((h'.mem key row).2 ((h.mem key row).1 (mem_of_lookup hrow)))
  · intro hrow
    exact lookup_of_mem h.sorted ((h.mem key row).2 ((h'.mem key row).1 (mem_of_lookup hrow)))

/-- The statement writes a row of its table, after rows that it skips or leaves as they are. -/
def SqlEngine.WritesRow (e : SqlEngine) : Statement → Prop
  | .update table assignments filter => ∃ schema rows, e.HasTable table schema ∧
      TableRows e.visible schema rows ∧ WritesFirst (UpdateIdle schema assignments filter)
        (UpdateWritten (fun key => ∀ text, (key, text) ∉ e.visible) schema assignments filter) rows
  | .delete table filter => ∃ schema rows, e.HasTable table schema ∧
      TableRows e.visible schema rows ∧
      WritesFirst (fun entry => matchesFilter filter entry.2 schema = .ok false)
        (fun entry => matchesFilter filter entry.2 schema = .ok true) rows
  | _ => False

section Engine
variable {e : SqlEngine} {db : Database} {schemas : String → Option Schema} {s : Statement} {fault : Fault}

theorem hasTable_iff (hrep : e.Rep db) (h : Sound schemas db.visible) {table : String} {schema : Schema} :
    e.HasTable table schema ↔ schemas table = some schema := by
  unfold SqlEngine.HasTable
  simp only [hrep.visible, SortedMap.mem_entries, h.catalog]
  constructor
  · rintro ⟨text, htext, hdec⟩
    obtain ⟨schema', hs, rfl⟩ := Option.map_eq_some_iff.1 htext
    obtain ⟨hv, rfl⟩ := h.valid hs
    rw [hs, Except.ok.inj ((decodeSchema_encodeSchema hv).symm.trans hdec)]
  · intro hs
    obtain ⟨hv, rfl⟩ := h.valid hs
    exact ⟨_, by rw [hs]; rfl, decodeSchema_encodeSchema hv⟩

theorem writesRow_iff (hrep : e.Rep db) (h : Sound schemas db.visible) :
    e.WritesRow s ↔ WritesRow schemas db.visible s := by
  have hrows := fun schema => tableRows_rowsOf db.visible schema
  have hfree : (fun key => ∀ text, (key, text) ∉ db.visible.entries) =
      fun key => db.visible.get key = none := by
    funext key
    simp only [SortedMap.mem_entries, Option.eq_none_iff_forall_not_mem, Option.mem_def]
  cases s with
  | update table assignments filter =>
    simp only [SqlEngine.WritesRow, WritesRow, hasTable_iff hrep h, hrep.visible, hfree]
    constructor
    · rintro ⟨schema, rows, hs, htable, hw⟩
      rw [htable.unique (hrows schema)] at hw
      exact ⟨schema, hs, hw⟩
    · rintro ⟨schema, hs, hw⟩
      exact ⟨schema, _, hs, hrows schema, hw⟩
  | delete table filter =>
    simp only [SqlEngine.WritesRow, WritesRow, hasTable_iff hrep h, hrep.visible]
    constructor
    · rintro ⟨schema, rows, hs, htable, hw⟩
      rw [htable.unique (hrows schema)] at hw
      exact ⟨schema, hs, hw⟩
    · rintro ⟨schema, hs, hw⟩
      exact ⟨schema, _, hs, hrows schema, hw⟩
  | _ => exact Iff.rfl

/-- A statement that fails in a transaction of its own uses an id at most. -/
theorem withTransaction_aborted {α : Type} {operation : Act Tables α} (hactive : db.active = none)
    (hfail : ((Database.withTransaction operation).run db).1 = .error fault) :
    ((Database.withTransaction operation).run db).2.tables = db.tables ∧
    ((Database.withTransaction operation).run db).2.active = none ∧
    ((Database.withTransaction operation).run db).2.commitTs = db.commitTs ∧
    ((Database.withTransaction operation).run db).2.nextTxn.val ≤ db.nextTxn.val + 1 := by
  obtain ⟨tables, active, nextTxn, commitTs⟩ := db
  obtain rfl : active = none := hactive
  simp only [Act.run, Database.withTransaction, Database.beginTxn] at hfail ⊢
  rcases hn : nextTxn.checkedAdd 1 with _ | next
  · exact ⟨rfl, rfl, rfl, Nat.le_succ _⟩
  have hle : next.val ≤ nextTxn.val + 1 := (U64.checkedAdd_eq_some.1 hn).le
  rw [hn] at hfail
  rcases hop : operation tables with ⟨fault' | result, m⟩
  · simpa only [hop, true_and] using hle
  · simp only [hop, Database.commitTxn] at hfail ⊢
    rcases hts : commitTs.checkedAdd 1 with _ | ts
    · exact ⟨rfl, rfl, rfl, hle⟩
    · rw [hts] at hfail
      cases hfail

/-- **When a failed statement is without effect**: outside of a transaction always, and in a
    transaction if it has written no row before it failed. -/
theorem unaffected_iff (h : e.Reached) (hs : s.OnTables)
    (hfail : ((SqlEngine.executeStatement s).run e).1 = .error fault) :
    Unaffected e ((SqlEngine.executeStatement s).run e).2 ↔ ¬ (e.active.isSome = true ∧ e.WritesRow s) := by
  obtain ⟨db, c, hrep, hsound⟩ := h.sound
  have hvis := hsound.visible
  obtain ⟨hres, hrep'⟩ := executeStatement_simulates s e db hrep
  rw [hres] at hfail
  rw [writesRow_iff hrep hvis]
  rw [Database.executeStatement_onTables hs] at hfail hrep'
  rcases hactive : e.active with _ | txn
  · have hidle := hrep.active_eq_none.1 hactive
    obtain ⟨htables, hnone, hts, hnext⟩ := withTransaction_aborted hidle hfail
    rw [← hidle] at hnone
    simpa using unaffected_of_tables hrep hrep' htables hnone hts hnext
  · obtain ⟨m, hm⟩ : ∃ m, db.active = some m := by
      refine Option.ne_none_iff_exists'.1 fun hnone => ?_
      rw [hrep.active_eq_none.2 hnone] at hactive
      cases hactive
    obtain ⟨tables, active, nextTxn, commitTs⟩ := db
    obtain rfl : active = some m := hm
    simp only [Option.isSome_some, true_and]
    rw [← executeData_unchanged_iff hvis hfail]
    constructor
    · intro hsame
      have hnow := hsame.now
      rw [hrep'.visible, hrep.visible] at hnow
      exact SortedMap.ext_entries hnow
    · intro hsame
      have hdb : ((Database.withTransaction (executeData s)).run ⟨tables, some m, nextTxn, commitTs⟩).2 =
          ⟨tables, some m, nextTxn, commitTs⟩ := by
        change Database.mk tables (some ((executeData s : Act Tables SqlResult).run m).2) nextTxn commitTs = _
        rw [show ((executeData s : Act Tables SqlResult).run m).2 = m from hsame]
      rw [hdb] at hrep'
      exact unaffected_of_tables hrep hrep' rfl rfl rfl (Nat.le_succ _)

end Engine

/-- Two items, in a transaction that is open. -/
def twoItems : SqlEngine :=
  itemsAfter "insert into items (id) values (1); insert into items (id) values (2); begin"

/-- `insert into items (id) values (2)`. -/
def insertTwo : Statement := .insert "ITEMS" ["ID"] [.integer ⟨2, by decide⟩]

theorem unaffected_iff_twoItems : Unaffected twoItems ((SqlEngine.executeStatement insertTwo).run twoItems).2 := by
  have hs : insertTwo.OnTables := by simp [insertTwo, Statement.OnTables]
  have hfail : ((SqlEngine.executeStatement insertTwo).run twoItems).1 =
      .error (.io ⟨.invalidInput, "sql: duplicate primary key"⟩) := by decide +kernel
  exact (unaffected_iff (itemsAfter_reached _) hs hfail).2 fun h => h.2

/-- `update items set id = 9`. -/
def setNine : Statement := .update "ITEMS" [("ID", .integer ⟨9, by decide⟩)] none

/-- The second row cannot be moved to the key to which the first one was moved just before; the first
    row is not moved back, and it is committed under its new key. -/
theorem setNine_affects : parse "update items set id = 9" = .ok [setNine] ∧ twoItems.Reached ∧
    twoItems.visible.map Prod.fst =
      ["__CATALOG:ITEMS", "__ROW:ITEMS:490100000000000000", "__ROW:ITEMS:490200000000000000"] ∧
    ((SqlEngine.executeStatement setNine).run twoItems).1 = input "sql: duplicate primary key" ∧
    ((SqlEngine.executeStatement .commit).run
      ((SqlEngine.executeStatement setNine).run twoItems).2).2.visible.map Prod.fst =
      ["__CATALOG:ITEMS", "__ROW:ITEMS:490200000000000000", "__ROW:ITEMS:490900000000000000"] ∧
    ¬ Unaffected twoItems ((SqlEngine.executeStatement setNine).run twoItems).2 := by
  refine ⟨by decide +kernel, itemsAfter_reached _, by decide +kernel, by decide +kernel, by decide +kernel,
    fun h => absurd h.now (by decide +kernel)⟩

end NutDb.Sql
