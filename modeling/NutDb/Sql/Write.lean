/-
  What `UPDATE` and `DELETE` write.

  The loops go through the rows of an earlier scan while they write.  A turn takes
  its row out of the table and puts in what becomes of it, and leaves the other
  rows alone, since a row that moves goes to a key that is free.  So at the end the
  table has what became of each of its rows (`affected_rows`).
-/
import NutDb.Sql.Atomicity

namespace NutDb.Sql

open Lib Mvcc

/-! ## What becomes of the rows -/

/-- The value that is last assigned to a column. -/
def lastAssigned (schema : Schema) (assignments : List (String × Value)) (i : ℕ) : Option Value :=
  (assignments.filter fun a => schema.columnIndex a.1 = some i).getLast?.map Prod.snd

/-- The row after the assignments: a column has the value that was last assigned to it, if any. -/
def Assigned (schema : Schema) (assignments : List (String × Value)) (row row' : Row) : Prop :=
  ∀ i, row'[i]? = (lastAssigned schema assignments i).or row[i]?

open Classical in
/-- **What `UPDATE` makes of the rows of a table.** -/
structure RowsUpdated (schema : Schema) (assignments : List (String × Value)) (filter : Option Expr)
    (before after : List Row) (n : ℕ) : Prop where
  count : n = (before.filter fun row => Keeps schema filter row).length
  rows : ∃ updated, after.Perm updated ∧ List.Forall₂ (fun row row' =>
    if Keeps schema filter row then Assigned schema assignments row row' else row' = row) before updated

open Classical in
/-- **What `DELETE` leaves of the rows of a table.** -/
structure RowsDeleted (schema : Schema) (filter : Option Expr) (before after : List Row) (n : ℕ) : Prop where
  count : n = (before.filter fun row => Keeps schema filter row).length
  rows : after = before.filter fun row => ¬ Keeps schema filter row

open Classical in
/-- So many rows are gone. -/
theorem RowsDeleted.length {schema : Schema} {filter : Option Expr} {before after : List Row} {n : ℕ}
    (h : RowsDeleted schema filter before after n) : before.length = n + after.length := by
  have hnot : (fun row => decide ¬ Keeps schema filter row) = fun row => !decide (Keeps schema filter row) :=
    funext fun row => decide_not
  rw [h.rows, h.count, hnot]
  exact List.length_eq_length_filter_add _

section Assign
variable {schema : Schema} {assignments : List (String × Value)} {row row' : Row}

theorem lastAssigned_cons {column : String} {value : Value} {i j : ℕ} (hj : schema.columnIndex column = some j) :
    lastAssigned schema ((column, value) :: assignments) i =
      (lastAssigned schema assignments i).or (if j = i then some value else none) := by
  unfold lastAssigned
  by_cases hij : j = i
  · rw [List.filter_cons_of_pos (by simp [hj, hij]), List.getLast?_cons, if_pos hij]
    cases (assignments.filter fun a => schema.columnIndex a.1 = some i).getLast? <;> rfl
  · rw [List.filter_cons_of_neg (by simp [hj, hij]), if_neg hij, Option.or_none]

/-- **The assignments of an `UPDATE`** to a row. -/
theorem assignRow_assigned (h : assignRow schema assignments row = .ok row') :
    Assigned schema assignments row row' := by
  induction assignments generalizing row with
  | nil =>
    cases h
    exact fun i => rfl
  | cons assignment assignments ih =>
    obtain ⟨column, value⟩ := assignment
    obtain ⟨j, hj, hlt, h⟩ := assignRow_cons h
    intro i
    rw [ih h i, lastAssigned_cons (namedColumn_eq_ok.1 hj), Option.or_assoc]
    congr 1
    by_cases hij : j = i
    · subst hij
      simp [hlt]
    · simp [hij]

end Assign

/-! ## One row -/

section Tables
variable {schemas : String → Option Schema} {m m' : Tables} {schema : Schema} {table key : String} {row : Row}
  {rest : List (String × Row)}

theorem nodup_rowsOf (m : Tables) (schema : Schema) : (rowsOf m schema).Nodup :=
  (sortedKeys_rowsOf m schema).imp fun hlt heq => hlt.ne (congrArg Prod.fst heq)

/-- A key has one row. -/
theorem row_unique {e e' : String × Row} (he : e ∈ rowsOf m schema) (he' : e' ∈ rowsOf m schema)
    (hkey : e.1 = e'.1) : e = e' := by
  have hsorted := sortedKeys_rowsOf m schema
  have hlookup := lookup_of_mem hsorted he
  have hlookup' := lookup_of_mem hsorted he'
  rw [hkey, hlookup'] at hlookup
  exact Prod.ext hkey (Option.some.inj hlookup).symm

/-- **A row is taken out.** -/
theorem Sound.perm_erase (h : Sound schemas m) (hs : schemas table = some schema)
    (hperm : (rowsOf m schema).Perm ((key, row) :: rest)) : (rowsOf (m.erase key) schema).Perm rest := by
  have hmem : ∀ {e}, e ∈ rowsOf m schema ↔ e = (key, row) ∨ e ∈ rest := by
    intro e
    rw [hperm.mem_iff, List.mem_cons]
  have hnodup := hperm.nodup_iff.1 (nodup_rowsOf m schema)
  obtain ⟨hnotin, hnodup⟩ := List.nodup_cons.1 hnodup
  have hrow := ((mem_rowsOf h hs).1 (hmem.2 (Or.inl rfl))).1
  refine (List.perm_ext_iff_of_nodup (nodup_rowsOf _ _) hnodup).2 fun ⟨k, r⟩ => ?_
  rw [mem_rowsOf (h.eraseRow hs hrow) hs, SortedMap.get_erase]
  constructor
  · rintro ⟨hr, hget⟩
    split_ifs at hget with hk
    refine (hmem.1 ((mem_rowsOf h hs).2 ⟨hr, hget⟩)).resolve_left fun heq => hk ?_
    exact (Prod.mk.inj heq).1
  · intro hr
    have hr' := hmem.2 (Or.inr hr)
    have hk : k ≠ key := by
      rintro rfl
      have heq := row_unique hr' (hmem.2 (Or.inl rfl)) rfl
      exact hnotin (heq ▸ hr)
    rw [if_neg hk]
    exact (mem_rowsOf h hs).1 hr'

/-- **A row is put under a key that is free.** -/
theorem Sound.perm_insert (h : Sound schemas m) (hs : schemas table = some schema) (hrow : IsRow schema key row)
    (hl : (TxnRecord.set 0 key (encodeRow row)).Loggable) (hfree : m.get key = none) :
    (rowsOf (m.insert key (encodeRow row)) schema).Perm ((key, row) :: rowsOf m schema) := by
  have hnotin : (key, row) ∉ rowsOf m schema := by
    intro hmem
    rw [((mem_rowsOf h hs).1 hmem).2] at hfree
    cases hfree
  refine (List.perm_ext_iff_of_nodup (nodup_rowsOf _ _) (List.nodup_cons.2 ⟨hnotin, nodup_rowsOf _ _⟩)).2
    fun ⟨k, r⟩ => ?_
  rw [List.mem_cons, mem_rowsOf (h.insertRow hs hrow hl) hs, mem_rowsOf h hs, SortedMap.get_insert]
  constructor
  · rintro ⟨hr, hget⟩
    split_ifs at hget with hk
    · subst hk
      rw [encodeRow_injective (h.valid hs).1 hrow.fits hr.fits (Option.some.inj hget)]
      exact Or.inl rfl
    · exact Or.inr ⟨hr, hget⟩
  · rintro (heq | ⟨hr, hget⟩)
    · cases heq
      exact ⟨hrow, if_pos rfl⟩
    · refine ⟨hr, ?_⟩
      rw [if_neg, hget]
      rintro rfl
      rw [hfree] at hget
      cases hget

/-- What a turn of a loop does with the rows of the table. -/
def Turns (schemas : String → Option Schema) (schema : Schema) (body : String → Row → Act Tables Unit)
    (out : String × Row → List (String × Row) → Prop) : Prop :=
  ∀ {m m' e}, Sound schemas m → e ∈ rowsOf m schema → (body e.1 e.2).run m = (.ok (), m') →
    Sound schemas m' ∧ ∃ es, out e es ∧
      ∀ rest, (rowsOf m schema).Perm (e :: rest) → (rowsOf m' schema).Perm (es ++ rest)

theorem delete_turns (hs : schemas table = some schema) :
    Turns schemas schema (fun key _ => Txn.delete key) fun _ es => es = [] := by
  intro m m' e h he hrun
  have hrow := ((mem_rowsOf h hs).1 he).1
  rw [delete_run, refusal_eq_none.2 (h.deletable hs he)] at hrun
  cases hrun
  exact ⟨h.eraseRow hs hrow, [], rfl, fun rest hperm => h.perm_erase hs hperm⟩

theorem update_turns (hs : schemas table = some schema) (assignments : List (String × Value)) :
    Turns schemas schema (updateRow schema assignments) fun e es =>
      ∃ key' row', es = [(key', row')] ∧ Assigned schema assignments e.2 row' := by
  intro m m' e h he hrun
  have hrow := ((mem_rowsOf h hs).1 he).1
  have hout := updateRow_cases (m := m) assignments hrow (h.deletable hs he)
  have hsound := hout.sound h hs hrow
  rw [hrun] at hout hsound
  refine ⟨hsound, ?_⟩
  have hput : ∀ {key' row'}, IsRow schema key' row' → (TxnRecord.set 0 key' (encodeRow row')).Loggable →
      (m.erase e.1).get key' = none → ∀ rest, (rowsOf m schema).Perm (e :: rest) →
      (rowsOf ((m.erase e.1).insert key' (encodeRow row')) schema).Perm ((key', row') :: rest) := by
    intro key' row' hrow' hl hfree rest hperm
    exact ((h.eraseRow hs hrow).perm_insert hs hrow' hl hfree).trans ((h.perm_erase hs hperm).cons _)
  cases hout with
  | @replaced row' hassign hrow' hl =>
    refine ⟨[(e.1, row')], ⟨e.1, row', rfl, assignRow_assigned hassign⟩, fun rest hperm => ?_⟩
    -- writing over a row is the same as taking it out before
    have heq : m.insert e.1 (encodeRow row') = (m.erase e.1).insert e.1 (encodeRow row') := by
      refine SortedMap.ext fun k => ?_
      simp only [SortedMap.get_insert, SortedMap.get_erase]
      split_ifs <;> rfl
    rw [heq]
    exact hput hrow' hl (by simp) rest hperm
  | @moved row' key' hassign hrow' hne hfree hl =>
    refine ⟨[(key', row')], ⟨key', row', rfl, assignRow_assigned hassign⟩, fun rest hperm => ?_⟩
    exact hput hrow' hl (by simp [hne, hfree]) rest hperm

/-! ## All rows -/

section Loop
variable {filter : Option Expr} {body : String → Row → Act Tables Unit}
  {out : String × Row → List (String × Row) → Prop} {rows : List (String × Row)}

/-- What becomes of a row: it stays, if the filter does not let it through. -/
def Becomes (schema : Schema) (filter : Option Expr) (out : String × Row → List (String × Row) → Prop)
    (e : String × Row) (es : List (String × Row)) : Prop :=
  Keeps schema filter e.2 ∧ out e es ∨ ¬ Keeps schema filter e.2 ∧ es = [e]

open Classical in
/-- **A loop that succeeds**: the table has what became of the rows, and the others. -/
theorem forMatching_rows (hturns : Turns schemas schema body out) {others : List (String × Row)} {n : ℕ}
    {result : SqlResult} (h : Sound schemas m) (hperm : (rowsOf m schema).Perm (rows ++ others))
    (hrun : (forMatching schema filter body rows n).run m = (.ok result, m')) :
    ∃ outs, List.Forall₂ (Becomes schema filter out) rows outs ∧
      result = .affected (n + (rows.filter fun e => Keeps schema filter e.2).length) ∧
      (rowsOf m' schema).Perm (outs.flatten ++ others) := by
  induction rows generalizing m others n with
  | nil =>
    cases hrun
    exact ⟨[], .nil, rfl, hperm⟩
  | cons e rows ih =>
    rw [forMatching_cons] at hrun
    rcases hkept : matchesFilter filter e.2 schema with fault | kept
    · rw [hkept] at hrun
      cases hrun
    have hkeeps := matchesFilter_eq_ok hkept
    rw [hkept] at hrun
    cases kept with
    | false =>
      have hnot : ¬ Keeps schema filter e.2 := fun hk => (nomatch hkeeps.2 hk)
      obtain ⟨outs, houts, hresult, hperm'⟩ := ih h (hperm.trans List.perm_middle.symm) hrun
      refine ⟨[e] :: outs, .cons (Or.inr ⟨hnot, rfl⟩) houts, ?_, hperm'.trans List.perm_middle⟩
      rw [List.filter_cons_of_neg (by simpa using hnot)]
      exact hresult
    | true =>
      have hk : Keeps schema filter e.2 := hkeeps.1 rfl
      obtain ⟨u, m₁, hbody, hrun⟩ := Act.run_bind_eq_ok.1 hrun
      have he : e ∈ rowsOf m schema := hperm.mem_iff.2 List.mem_cons_self
      obtain ⟨h₁, es, hes, hput⟩ := hturns h he hbody
      have hperm₁ : (rowsOf m₁ schema).Perm (rows ++ (es ++ others)) := by
        refine (hput (rows ++ others) hperm).trans ?_
        rw [← List.append_assoc, ← List.append_assoc]
        exact List.perm_append_comm.append_right others
      obtain ⟨outs, houts, hresult, hperm'⟩ := ih h₁ hperm₁ hrun
      refine ⟨es :: outs, .cons (Or.inl ⟨hk, hes⟩) houts, ?_, hperm'.trans ?_⟩
      · rw [List.filter_cons_of_pos (by simpa using hk), List.length_cons, ← Nat.add_assoc,
          Nat.add_right_comm]
        exact hresult
      · rw [List.flatten_cons, ← List.append_assoc]
        exact List.perm_append_comm.append_right others

end Loop

/-! ## Statements on tables -/

open Classical in
theorem forall₂_updated {assignments : List (String × Value)} {filter : Option Expr}
    {rows : List (String × Row)} {outs : List (List (String × Row))}
    (h : List.Forall₂ (Becomes schema filter fun e es =>
      ∃ key' row', es = [(key', row')] ∧ Assigned schema assignments e.2 row') rows outs) :
    List.Forall₂ (fun row row' =>
        if Keeps schema filter row then Assigned schema assignments row row' else row' = row)
      (rows.map Prod.snd) (outs.flatten.map Prod.snd) := by
  induction h with
  | nil => exact .nil
  | @cons e es rows outs he _ ih =>
    rcases he with ⟨hk, key', row', rfl, hassigned⟩ | ⟨hk, rfl⟩
    · exact .cons (by rw [if_pos hk]; exact hassigned) ih
    · exact .cons (by rw [if_neg hk]) ih

open Classical in
theorem flatten_deleted {filter : Option Expr} {rows : List (String × Row)}
    {outs : List (List (String × Row))} (h : List.Forall₂ (Becomes schema filter fun _ es => es = []) rows outs) :
    outs.flatten = rows.filter fun e => ¬ Keeps schema filter e.2 := by
  induction h with
  | nil => rfl
  | @cons e es rows outs he _ ih =>
    rcases he with ⟨hk, rfl⟩ | ⟨hk, rfl⟩
    · rw [List.filter_cons_of_neg (by simpa using hk), ← ih]
      rfl
    · rw [List.filter_cons_of_pos (by simpa using hk), ← ih]
      rfl

open Classical in
theorem length_filter_snd {filter : Option Expr} (rows : List (String × Row)) :
    ((rows.map Prod.snd).filter fun row => Keeps schema filter row).length =
      (rows.filter fun e => Keeps schema filter e.2).length := by
  rw [List.filter_map, List.length_map]
  rfl

/-- A loop over the rows of a table that succeeds. -/
theorem onRows_eq_ok {α : Type} {f : Schema → List (String × Row) → Act Tables α} {result : α}
    (h : Sound schemas m) (hrun : (loadSchema table >>= fun schema => allRows schema >>= f schema).run m =
      (.ok result, m')) :
    ∃ schema, schemas table = some schema ∧ (f schema (rowsOf m schema)).run m = (.ok result, m') := by
  rcases onTable_cases h table fun schema => allRows schema >>= f schema with ⟨fault, hfail⟩ | ⟨schema, hs, hok⟩
  · rw [hrun] at hfail
    cases hfail
  · rw [hrun, Act.run_bind_ok (allRows_run h hs)] at hok
    exact ⟨schema, hs, hok.symm⟩

/-! Outside of the rows of the table nothing changes. -/

section Outside
variable {m₀ : Tables} {e : String × Row}

theorem ne_outside (hrow : IsRow schema key row) (h : Sound schemas m₀) (hs : schemas table = some schema)
    {k : String} (hk : startsWith k (rowPrefix table) = false) : k ≠ key := by
  obtain ⟨hv, hname⟩ := h.valid hs
  rintro rfl
  have hpre := (hrow.startsWith hv hv.name).2 rfl
  rw [hname, hk] at hpre
  cases hpre

/-- A row is taken from a key of the table and put under one. -/
theorem preserves_updateRow (h : Sound schemas m₀) (hs : schemas table = some schema)
    (he : e ∈ rowsOf m₀ schema) (assignments : List (String × Value)) :
    Act.Preserves (fun m : Tables => ∀ k, startsWith k (rowPrefix table) = false → m.get k = m₀.get k)
      (updateRow schema assignments e.1 e.2) := by
  intro m hm k hk
  have hrow := ((mem_rowsOf h hs).1 he).1
  have hne := ne_outside hrow h hs hk
  have hout : Updated schema assignments e.1 e.2 m _ := updateRow_cases assignments hrow (h.deletable hs he)
  generalize (updateRow schema assignments e.1 e.2 : Act Tables Unit).run m = out at hout
  cases hout with
  | refused _ => exact hm k hk
  | replaced _ _ _ => simp [hne, hm k hk]
  | moved _ hrow' _ _ _ => simp [hne, ne_outside hrow' h hs hk, hm k hk]
  | lost _ _ _ _ _ => simp [hne, hm k hk]

theorem preserves_deleteRow (h : Sound schemas m₀) (hs : schemas table = some schema)
    (he : e ∈ rowsOf m₀ schema) :
    Act.Preserves (fun m : Tables => ∀ k, startsWith k (rowPrefix table) = false → m.get k = m₀.get k)
      (Txn.delete e.1 : Act Tables Unit) := by
  intro m hm k hk
  have hne := ne_outside ((mem_rowsOf h hs).1 he).1 h hs hk
  rw [delete_run, refusal_eq_none.2 (h.deletable hs he)]
  simp [hne, hm k hk]

end Outside

/-- **`UPDATE`** on tables. -/
theorem update_eq_ok {assignments : List (String × Value)} {filter : Option Expr} {result : SqlResult}
    (h : Sound schemas m) (hrun : (update table assignments filter : Act Tables SqlResult).run m = (.ok result, m')) :
    ∃ schema n, schemas table = some schema ∧ result = .affected n ∧ Sound schemas m' ∧
      RowsUpdated schema assignments filter ((rowsOf m schema).map Prod.snd) ((rowsOf m' schema).map Prod.snd) n ∧
      ∀ k, startsWith k (rowPrefix table) = false → m'.get k = m.get k := by
  have hsound := update_sound h table assignments filter
  rw [hrun] at hsound
  obtain ⟨schema, hs, hrun⟩ := onRows_eq_ok h hrun
  have hall : (rowsOf m schema).Perm (rowsOf m schema ++ []) := by rw [List.append_nil]
  obtain ⟨outs, houts, rfl, hperm⟩ := forMatching_rows (update_turns hs assignments) h hall hrun
  rw [List.append_nil] at hperm
  refine ⟨schema, _, hs, rfl, hsound, ⟨?_, _, hperm.map Prod.snd, forall₂_updated houts⟩, ?_⟩
  · rw [length_filter_snd, Nat.zero_add]
  · have hm' : m' = ((forMatching schema filter (updateRow schema assignments) (rowsOf m schema) 0).run m).2 := by
      rw [hrun]
    rw [hm']
    exact forMatching_preserves (fun e he => preserves_updateRow h hs he assignments) 0 m fun _ _ => rfl

/-- **`DELETE`** on tables. -/
theorem delete_eq_ok {filter : Option Expr} {result : SqlResult} (h : Sound schemas m)
    (hrun : (delete table filter : Act Tables SqlResult).run m = (.ok result, m')) :
    ∃ schema n, schemas table = some schema ∧ result = .affected n ∧ Sound schemas m' ∧
      RowsDeleted schema filter ((rowsOf m schema).map Prod.snd) ((rowsOf m' schema).map Prod.snd) n ∧
      ∀ k, startsWith k (rowPrefix table) = false → m'.get k = m.get k := by
  have hsound := delete_sound h table filter
  rw [hrun] at hsound
  obtain ⟨schema, hs, hrun⟩ := onRows_eq_ok h hrun
  have hall : (rowsOf m schema).Perm (rowsOf m schema ++ []) := by rw [List.append_nil]
  obtain ⟨outs, houts, rfl, hperm⟩ := forMatching_rows (delete_turns hs) h hall hrun
  rw [List.append_nil, flatten_deleted houts] at hperm
  -- the rows that stay are in the order of their keys
  have hrows : rowsOf m' schema = _ := hperm.eq_of_pairwise (fun a b _ _ hab hba => absurd hab hba.asymm)
    (sortedKeys_rowsOf m' schema) ((sortedKeys_rowsOf m schema).filter _)
  refine ⟨schema, _, hs, rfl, hsound, ⟨?_, ?_⟩, ?_⟩
  · rw [length_filter_snd, Nat.zero_add]
  · rw [hrows, List.filter_map]
    rfl
  · have hm' : m' = ((forMatching schema filter (fun key _ => Txn.delete key) (rowsOf m schema) 0).run m).2 := by
      rw [hrun]
    rw [hm']
    refine forMatching_preserves (I := fun m₁ : Tables => ∀ k, startsWith k (rowPrefix table) = false →
      m₁.get k = m.get k) (fun e he => ?_) 0 m fun _ _ => rfl
    exact preserves_deleteRow h hs he

end Tables

/-! ## Statements of the engine -/

/-- Outside of the rows of a table both engines show the same. -/
def SameOutside (table : String) (e e' : SqlEngine) : Prop :=
  ∀ entry, startsWith entry.1 (rowPrefix table) = false → (entry ∈ e'.visible ↔ entry ∈ e.visible)

section Engine
variable {e e' : SqlEngine} {table : String}

/-- A statement that writes rows of a table, on the engine. -/
theorem onRows_visible {s : Statement} {result : SqlResult} (h : e.Reached) (hs : s.OnTables)
    (hrun : (SqlEngine.executeStatement s).run e = (.ok result, e')) :
    ∃ schemas m m', Sound schemas m ∧ (executeData s : Act Tables SqlResult).run m = (.ok result, m') ∧
      e.visible = m.entries ∧ e'.visible = m'.entries := by
  obtain ⟨db, c, hrep, hsound⟩ := h.sound
  obtain ⟨hres, hrep'⟩ := executeStatement_simulates s e db hrep
  rw [hrun] at hres hrep'
  rw [Database.executeStatement_onTables hs] at hres hrep'
  have heq : (Database.withTransaction (executeData s)).run db =
      (.ok result, ((Database.withTransaction (executeData s)).run db).2) := Prod.ext hres.symm rfl
  obtain ⟨-, hok, hdb⟩ := withTransaction_eq_ok.1 heq
  refine ⟨c.visible, db.visible, _, hsound.visible, Prod.ext hok rfl, hrep.visible, ?_⟩
  rw [hrep'.visible, hdb, Database.visible_withVisible]

/-- **What `UPDATE` and `DELETE` do** when they succeed, in every state of the engine. -/
theorem affected_rows (h : e.Reached) {n : ℕ} :
    (∀ assignments filter,
      (SqlEngine.executeStatement (.update table assignments filter)).run e = (.ok (.affected n), e') →
      ∃ schema before after, StoredTable e.visible table schema ∧ StoredTable e'.visible table schema ∧
        TableRows e.visible schema before ∧ TableRows e'.visible schema after ∧
        RowsUpdated schema assignments filter (before.map Prod.snd) (after.map Prod.snd) n ∧
        SameOutside table e e') ∧
    ∀ filter, (SqlEngine.executeStatement (.delete table filter)).run e = (.ok (.affected n), e') →
      ∃ schema before after, StoredTable e.visible table schema ∧ StoredTable e'.visible table schema ∧
        TableRows e.visible schema before ∧ TableRows e'.visible schema after ∧
        RowsDeleted schema filter (before.map Prod.snd) (after.map Prod.snd) n ∧
        SameOutside table e e' := by
  have houtside : ∀ {m m' : Tables}, e.visible = m.entries → e'.visible = m'.entries →
      (∀ k, startsWith k (rowPrefix table) = false → m'.get k = m.get k) → SameOutside table e e' := by
    intro m m' hm hm' hget entry hentry
    rw [hm, hm', SortedMap.mem_entries, SortedMap.mem_entries, hget _ hentry]
  constructor
  · intro assignments filter hrun
    obtain ⟨schemas, m, m', hsound, hok, hm, hm'⟩ := onRows_visible h
      (by simp [Statement.OnTables]) hrun
    obtain ⟨schema, k, hs, heq, hsound', hrows, hget⟩ := update_eq_ok hsound hok
    cases heq
    refine ⟨schema, rowsOf m schema, rowsOf m' schema, ?_, ?_, ?_, ?_, hrows, houtside hm hm' hget⟩
    · rw [hm]; exact hsound.stored hs
    · rw [hm']; exact hsound'.stored hs
    · rw [hm]; exact tableRows_rowsOf m schema
    · rw [hm']; exact tableRows_rowsOf m' schema
  · intro filter hrun
    obtain ⟨schemas, m, m', hsound, hok, hm, hm'⟩ := onRows_visible h
      (by simp [Statement.OnTables]) hrun
    obtain ⟨schema, k, hs, heq, hsound', hrows, hget⟩ := delete_eq_ok hsound hok
    cases heq
    refine ⟨schema, rowsOf m schema, rowsOf m' schema, ?_, ?_, ?_, ?_, hrows, houtside hm hm' hget⟩
    · rw [hm]; exact hsound.stored hs
    · rw [hm']; exact hsound'.stored hs
    · rw [hm]; exact tableRows_rowsOf m schema
    · rw [hm']; exact tableRows_rowsOf m' schema

end Engine

/-- `update items set id = 1, id = 7 where id = 2`. -/
def moveTwo : Statement :=
  .update "ITEMS" [("ID", .integer ⟨1, one_fits⟩), ("ID", .integer ⟨7, by decide⟩)]
    (some (.binary .eq (.column "ID") (.literal (.integer ⟨2, two_fits⟩))))

/-- `delete from items where id = 1 or id = 9`. -/
def dropOne : Statement :=
  .delete "ITEMS" (some (.binary .or (.binary .eq (.column "ID") (.literal (.integer ⟨1, one_fits⟩)))
    (.binary .eq (.column "ID") (.literal (.integer ⟨9, nine_fits⟩)))))

/-- One row moves away from a key that another one has, and of two rows one is deleted. -/
theorem affected_rows_moveTwo :
    parse "update items set id = 1, id = 7 where id = 2; delete from items where id = 1 or id = 9" =
      .ok [moveTwo, dropOne] ∧
    (∃ e', (SqlEngine.executeStatement moveTwo).run twoItems = (.ok (.affected 1), e') ∧
      e'.visible.map Prod.fst =
        ["__CATALOG:ITEMS", "__ROW:ITEMS:490100000000000000", "__ROW:ITEMS:490700000000000000"] ∧
      ∃ schema before after, TableRows twoItems.visible schema before ∧ TableRows e'.visible schema after ∧
        before.length = after.length) ∧
    ∃ e', (SqlEngine.executeStatement dropOne).run twoItems = (.ok (.affected 1), e') ∧
      e'.visible.map Prod.fst = ["__CATALOG:ITEMS", "__ROW:ITEMS:490200000000000000"] ∧
      ∃ schema before after, TableRows twoItems.visible schema before ∧ TableRows e'.visible schema after ∧
        after.length + 1 = before.length := by
  have hmove : ((SqlEngine.executeStatement moveTwo).run twoItems).1 = .ok (.affected 1) := by decide +kernel
  have hdrop : ((SqlEngine.executeStatement dropOne).run twoItems).1 = .ok (.affected 1) := by decide +kernel
  refine ⟨by decide +kernel, ⟨_, Act.run_eq_of_fst hmove, by decide +kernel, ?_⟩,
    ⟨_, Act.run_eq_of_fst hdrop, by decide +kernel, ?_⟩⟩
  · obtain ⟨schema, before, after, -, -, hbefore, hafter, hrows, -⟩ :=
      (affected_rows (itemsAfter_reached _)).1 _ _ (Act.run_eq_of_fst hmove)
    obtain ⟨updated, hperm, hupdated⟩ := hrows.rows
    refine ⟨schema, before, after, hbefore, hafter, ?_⟩
    have hlen := hupdated.length_eq
    rw [← hperm.length_eq, List.length_map, List.length_map] at hlen
    exact hlen
  · obtain ⟨schema, before, after, -, -, hbefore, hafter, hrows, -⟩ :=
      (affected_rows (itemsAfter_reached _)).2 _ (Act.run_eq_of_fst hdrop)
    refine ⟨schema, before, after, hbefore, hafter, ?_⟩
    have hlen := hrows.length
    rw [List.length_map, List.length_map, Nat.add_comm] at hlen
    exact hlen.symm

end NutDb.Sql
