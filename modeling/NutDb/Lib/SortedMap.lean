/-
  Finite maps with ordered keys.

  A map is its list of entries in ascending order of keys, so two maps are equal
  if all their keys have the same values (`ext`).  The lemmas on scans say what is
  collected by a loop over entries or over changes, and that the entries from a
  lower bound up to the first miss are all that belong to an interval
  (`window_eq_filter`).
-/
import NutDb.Lib.Sorted

namespace Lib

/-- A finite map with ordered keys. -/
structure SortedMap (κ α : Type) [LinearOrder κ] where
  entries : List (κ × α)
  sorted : SortedKeys entries

namespace SortedMap
variable {κ α : Type} [LinearOrder κ] {m m' : SortedMap κ α} {k k' : κ} {v : α}

/-- The map without entries. -/
def empty : SortedMap κ α := ⟨[], List.Pairwise.nil⟩

instance : Inhabited (SortedMap κ α) := ⟨empty⟩

/-- The value of a key. -/
def get (m : SortedMap κ α) (k : κ) : Option α := m.entries.lookup k

/-- Give a key a value. -/
def insert (m : SortedMap κ α) (k : κ) (v : α) : SortedMap κ α :=
  ⟨insertEntry k v m.entries, sortedKeys_insertEntry m.sorted⟩

/-- Remove a key. -/
def erase (m : SortedMap κ α) (k : κ) : SortedMap κ α :=
  ⟨eraseKey k m.entries, sortedKeys_eraseKey m.sorted⟩

@[ext] theorem ext (h : ∀ k, m.get k = m'.get k) : m = m' := by
  have hentries : m.entries = m'.entries := sortedKeys_ext m.sorted m'.sorted h
  cases m
  cases m'
  cases hentries
  rfl

theorem ext_entries (h : m.entries = m'.entries) : m = m' := ext fun k => by rw [get, h, get]

@[simp] theorem get_empty (k : κ) : (empty : SortedMap κ α).get k = none := rfl

@[simp] theorem get_insert : (m.insert k v).get k' = if k' = k then some v else m.get k' :=
  lookup_insertEntry

@[simp] theorem get_erase : (m.erase k).get k' = if k' = k then none else m.get k' := lookup_eraseKey

theorem mem_entries : (k, v) ∈ m.entries ↔ m.get k = some v :=
  ⟨fun h => lookup_of_mem m.sorted h, mem_of_lookup⟩

/-- A value that is there already is inserted without effect. -/
theorem insert_of_get (h : m.get k = some v) : m.insert k v = m := by
  refine ext fun k' => ?_
  rw [get_insert]
  split_ifs with hk
  · rw [hk, h]
  · rfl

end SortedMap

/-! ## Scans -/

section Scan
variable {κ α β : Type} [LinearOrder κ]

/-- A loop that collects entries. -/
theorem lookup_foldl_collect {f : κ → Option α} {step : List (κ × α) → κ × β → List (κ × α)}
    (hstep : ∀ rows e, step rows e = (f e.1).elim rows fun value => insertEntry e.1 value rows)
    (l : List (κ × β)) (rows : List (κ × α)) (k : κ) : (l.foldl step rows).lookup k =
      if (∃ e ∈ l, e.1 = k) ∧ (f k).isSome then f k else rows.lookup k := by
  induction l generalizing rows with
  | nil => simp
  | cons e l ih =>
    rw [List.foldl_cons, ih, hstep]
    by_cases hrest : (∃ e ∈ l, e.1 = k) ∧ (f k).isSome
    · obtain ⟨⟨e', he', hk⟩, hf⟩ := hrest
      rw [if_pos ⟨⟨e', he', hk⟩, hf⟩, if_pos ⟨⟨e', List.mem_cons_of_mem _ he', hk⟩, hf⟩]
    · rw [if_neg hrest]
      by_cases hk : e.1 = k
      · subst hk
        rcases hf : f e.1 with _ | value
        · simp
        · simp [lookup_insertEntry]
      · have hiff : ((∃ e' ∈ e :: l, e'.1 = k) ∧ (f k).isSome) ↔
            ((∃ e' ∈ l, e'.1 = k) ∧ (f k).isSome) := by simp [hk]
        rw [if_neg (hiff.not.2 hrest)]
        rcases f e.1 with _ | value
        · rfl
        · exact lookup_insertEntry.trans (if_neg (Ne.symm hk))

/-- A loop that makes changes. -/
theorem lookup_foldl_change {step : List (κ × α) → κ × Option α → List (κ × α)}
    (hstep : ∀ rows w, step rows w = w.2.elim (eraseKey w.1 rows) fun value => insertEntry w.1 value rows)
    {l : List (κ × Option α)} (hl : SortedKeys l) (rows : List (κ × α)) (k : κ) :
    (l.foldl step rows).lookup k = (l.lookup k).getD (rows.lookup k) := by
  induction l generalizing rows with
  | nil => rfl
  | cons w l ih =>
    obtain ⟨hlt, hl'⟩ := sortedKeys_cons.1 hl
    rw [List.foldl_cons, ih hl', lookup_cons_if, hstep]
    by_cases hk : k = w.1
    · subst hk
      rw [lookup_none_iff.2 fun b hb => (hlt b hb).ne', if_pos rfl]
      cases w.2 with
      | none => simp [lookup_eraseKey]
      | some value => simp [lookup_insertEntry]
    · rw [if_neg hk]
      congr 1
      cases w.2 with
      | none => simp [lookup_eraseKey, hk]
      | some value => simp [lookup_insertEntry, hk]

theorem sortedKeys_foldl {step : List (κ × α) → β → List (κ × α)}
    (hstep : ∀ rows e, SortedKeys rows → SortedKeys (step rows e)) (l : List β)
    {rows : List (κ × α)} (h : SortedKeys rows) : SortedKeys (l.foldl step rows) := by
  induction l generalizing rows with
  | nil => exact h
  | cons e l ih => exact ih (hstep rows e h)

theorem lookup_filter {l : List (κ × α)} (p : κ → Bool) (k : κ) :
    (l.filter fun e => p e.1).lookup k = if p k then l.lookup k else none := by
  induction l with
  | nil => simp
  | cons e l ih =>
    rw [List.filter_cons, lookup_cons_if]
    by_cases hk : k = e.1
    · subst hk
      by_cases hp : p e.1 = true
      · simp [hp, lookup_cons_if]
      · simp [hp, ih]
    · by_cases hp : p e.1 = true
      · rw [if_pos hp, lookup_cons_if, if_neg hk, ih, if_neg hk]
      · rw [if_neg hp, ih, if_neg hk]

/-- At most one entry has the key. -/
theorem filter_key {l : List (κ × α)} (hl : SortedKeys l) (k : κ) :
    (l.filter fun e => decide (e.1 = k)) = (l.lookup k).toList.map fun v => (k, v) := by
  refine sortedKeys_ext (List.Pairwise.filter _ hl) ?_ fun k' => ?_
  · cases l.lookup k with
    | none => exact List.Pairwise.nil
    | some v => exact List.pairwise_singleton _ _
  · rw [lookup_filter fun x => decide (x = k)]
    by_cases hk : k' = k
    · subst hk
      cases l.lookup k' <;> simp [lookup_cons_if]
    · cases l.lookup k <;> simp [lookup_cons_if, hk]

/-- The entries of an interval of keys, from its lower bound up to the first key outside. -/
theorem window_eq_filter {l : List (κ × α)} (hl : SortedKeys l) {low : κ} {p : κ → Bool}
    (hlow : ∀ k, p k = true → low ≤ k)
    (hdown : ∀ k k', low ≤ k → k ≤ k' → p k' = true → p k = true) :
    (l.dropWhile fun e => decide (e.1 < low)).takeWhile (fun e => p e.1) = l.filter fun e => p e.1 := by
  induction l with
  | nil => rfl
  | cons e l ih =>
    obtain ⟨hlt, hl'⟩ := sortedKeys_cons.1 hl
    by_cases he : e.1 < low
    · have hp : ¬ p e.1 = true := fun hp => absurd (hlow _ hp) (not_le.2 he)
      rw [List.dropWhile_cons_of_pos (by simpa using he), List.filter_cons_of_neg (by simpa using hp), ih hl']
    · -- from here on nothing is dropped, and behind the first miss nothing belongs to the interval
      rw [List.dropWhile_cons_of_neg (by simpa using he)]
      by_cases hp : p e.1 = true
      · have hdrop : l.dropWhile (fun e => decide (e.1 < low)) = l := by
          refine List.dropWhile_eq_self_iff.2 fun hne => ?_
          have := hlt _ (List.getElem_mem hne)
          simpa using (not_lt.1 he).trans this.le
        rw [List.takeWhile_cons_of_pos (by simpa using hp), List.filter_cons_of_pos (by simpa using hp),
          ← ih hl', hdrop]
      · have hnone : l.filter (fun e => p e.1) = [] := by
          refine List.filter_eq_nil_iff.2 fun b hb hpb => hp ?_
          exact hdown _ _ (not_lt.1 he) (hlt b hb).le hpb
        rw [List.takeWhile_cons_of_neg (by simpa using hp), List.filter_cons_of_neg (by simpa using hp), hnone]

end Scan

end Lib
