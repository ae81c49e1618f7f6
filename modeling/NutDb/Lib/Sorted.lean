/-
  Sorted lists: binary search, and association lists ordered by key.

  * `binarySearch` halves the window as the standard library does; on a list
    without duplicates in ascending order it finds the key, or the point at
    which it would have to be inserted (`binarySearch_spec`);
  * an association list with strictly ascending keys (`SortedKeys`) is a finite
    map with operations `insertEntry`, `eraseKey` and `List.lookup`; the lemmas
    say how these act inside a concatenation, which is how trees use them.
-/
import NutDb.Lib.Outcome

namespace Lib

section Search
variable {α : Type} [LinearOrder α]

/-- The loop of the search, on the window of `size` elements from `base`. -/
def searchLoop (l : List α) (key : α) : ℕ → ℕ → ℕ → ℕ
  | 0, base, _ => base
  | fuel + 1, base, size =>
    if size > 1 then
      let half := size / 2
      let mid := base + half
      let above := (l[mid]?.map fun candidate => decide (key < candidate)).getD true
      searchLoop l key fuel (if above then base else mid) (size - half)
    else base

/-- Binary search: the index of the key (`ok`), or where to insert it (`error`). -/
def binarySearch (l : List α) (key : α) : Except ℕ ℕ :=
  let base := searchLoop l key l.length 0 l.length
  match l[base]? with
  | none => .error 0
  | some candidate =>
    if candidate = key then .ok base
    else .error (base + if candidate < key then 1 else 0)

/-- The window always holds the last element that is not above the key. -/
theorem searchLoop_spec {l : List α} (key : α) (hs : l.Pairwise (· < ·)) :
    ∀ {fuel base size : ℕ}, size ≤ fuel → 0 < size → base + size ≤ l.length →
      (base = 0 ∨ ∃ x, l[base]? = some x ∧ x ≤ key) →
      (∀ j x, base + size ≤ j → l[j]? = some x → key < x) →
      searchLoop l key fuel base size < l.length ∧
      (searchLoop l key fuel base size = 0 ∨
        ∃ x, l[searchLoop l key fuel base size]? = some x ∧ x ≤ key) ∧
      ∀ j x, searchLoop l key fuel base size < j → l[j]? = some x → key < x := by
  intro fuel
  induction fuel with
  | zero => intro base size hf h0; omega
  | succ fuel ih =>
    intro base size hf h0 hle hlo hhi
    rw [searchLoop]
    by_cases h1 : size > 1
    · have hmid : base + size / 2 < l.length := by omega
      have hm : l[base + size / 2]? = some l[base + size / 2] := List.getElem?_eq_getElem hmid
      simp only [if_pos h1, hm, Option.map_some, Option.getD_some, decide_eq_true_eq]
      split_ifs with hgt
      · refine ih (by omega) (by omega) (by omega) hlo fun j x hj hx => ?_
        by_cases hj' : base + size ≤ j
        · exact hhi j x hj' hx
        · -- everything from `mid` on is above the key
          obtain ⟨hjl, rfl⟩ := List.getElem?_eq_some_iff.1 hx
          rcases Nat.lt_or_ge (base + size / 2) j with hlt | hge
          · exact hgt.trans (List.pairwise_iff_getElem.1 hs _ _ hmid hjl hlt)
          · have : j = base + size / 2 := by omega
            subst this; exact hgt
      · exact ih (by omega) (by omega) (by omega) (Or.inr ⟨_, hm, not_lt.1 hgt⟩)
          fun j x hj hx => hhi j x (by omega) hx
    · rw [if_neg h1]
      exact ⟨by omega, hlo, fun j x hj hx => hhi j x (by omega) hx⟩

/-- **Binary search on a strictly ascending list.** -/
theorem binarySearch_spec {l : List α} (key : α) (hs : l.Pairwise (· < ·)) :
    (∃ l₁ l₂, l = l₁ ++ key :: l₂ ∧ binarySearch l key = .ok l₁.length) ∨
    (∃ l₁ l₂, l = l₁ ++ l₂ ∧ binarySearch l key = .error l₁.length ∧
      (∀ x ∈ l₁, x < key) ∧ ∀ x ∈ l₂, key < x) := by
  rcases Nat.eq_zero_or_pos l.length with h0 | h0
  · obtain rfl := List.length_eq_zero_iff.1 h0
    exact Or.inr ⟨[], [], rfl, rfl, by simp, by simp⟩
  obtain ⟨hlt, hlo, hhi⟩ := searchLoop_spec key hs le_rfl h0 (by omega) (Or.inl rfl)
    fun j x hj hx => by rw [List.getElem?_eq_none (by omega)] at hx; cases hx
  set base := searchLoop l key l.length 0 l.length with hbase
  have hb : l[base]? = some l[base] := List.getElem?_eq_getElem hlt
  have hsplit : l = l.take base ++ l[base] :: l.drop (base + 1) := by
    rw [List.getElem_cons_drop, List.take_append_drop]
  have hlen : (l.take base).length = base := by rw [List.length_take]; omega
  have hbelow : ∀ x ∈ l.take base, x < l[base] := by
    intro x hx
    obtain ⟨i, hi, rfl⟩ := List.getElem_of_mem hx
    rw [List.getElem_take]
    rw [List.length_take] at hi
    exact List.pairwise_iff_getElem.1 hs _ _ _ _ (by omega)
  have habove : ∀ x ∈ l.drop (base + 1), key < x := by
    intro x hx
    obtain ⟨i, hi, rfl⟩ := List.getElem_of_mem hx
    rw [List.getElem_drop]
    exact hhi (base + 1 + i) _ (by omega) (List.getElem?_eq_getElem _)
  unfold binarySearch
  simp only [← hbase, hb]
  split_ifs with heq hless
  · refine Or.inl ⟨l.take base, l.drop (base + 1), ?_, by rw [hlen]⟩
    rw [← heq]; exact hsplit
  · refine Or.inr ⟨l.take base ++ [l[base]], l.drop (base + 1), by simp,
      by rw [List.length_append, hlen]; rfl, ?_, habove⟩
    intro x hx
    rcases List.mem_append.1 hx with hx | hx
    · exact (hbelow x hx).trans hless
    · rw [List.mem_singleton.1 hx]; exact hless
  · -- the window ended above the key, so it never moved
    have h0' : base = 0 := by
      rcases hlo with h | ⟨x, hx, hle⟩
      · exact h
      · rw [hb, Option.some.injEq] at hx
        subst hx
        exact absurd (lt_of_le_of_ne hle heq) hless
    refine Or.inr ⟨[], l, rfl, by simp [h0'], by simp, fun x hx => ?_⟩
    have hkey : key < l[base] := lt_of_le_of_ne (not_lt.1 hless) (Ne.symm heq)
    rw [hsplit] at hx
    rcases List.mem_append.1 hx with hx | hx
    · rw [h0'] at hx; simp at hx
    · rcases List.mem_cons.1 hx with rfl | hx
      · exact hkey
      · exact habove x hx

end Search

/-! ## Association lists ordered by key -/

section Assoc
variable {κ α : Type} [LinearOrder κ]

/-- The keys are strictly ascending. -/
def SortedKeys (l : List (κ × α)) : Prop := l.Pairwise fun a b => a.1 < b.1

/-- Insert an entry, replacing the one with the same key. -/
def insertEntry (k : κ) (v : α) : List (κ × α) → List (κ × α)
  | [] => [(k, v)]
  | e :: l => if e.1 < k then e :: insertEntry k v l
      else if e.1 = k then (k, v) :: l else (k, v) :: e :: l

/-- Replace the value of the key `k`, if it is there. -/
def updateKey (k : κ) (v : α) (l : List (κ × α)) : List (κ × α) :=
  l.map fun e => if e.1 = k then (k, v) else e

/-- Remove the entry with key `k`. -/
def eraseKey (k : κ) (l : List (κ × α)) : List (κ × α) := l.filter fun e => decide (e.1 ≠ k)

theorem sortedKeys_append {l₁ l₂ : List (κ × α)} : SortedKeys (l₁ ++ l₂) ↔
    SortedKeys l₁ ∧ SortedKeys l₂ ∧ ∀ a ∈ l₁, ∀ b ∈ l₂, a.1 < b.1 := List.pairwise_append

theorem sortedKeys_cons {e : κ × α} {l : List (κ × α)} : SortedKeys (e :: l) ↔
    (∀ b ∈ l, e.1 < b.1) ∧ SortedKeys l := List.pairwise_cons

/-- Insertion passes over smaller keys. -/
theorem insertEntry_append_left {k : κ} {v : α} {l₁ l₂ : List (κ × α)} (h : ∀ e ∈ l₁, e.1 < k) :
    insertEntry k v (l₁ ++ l₂) = l₁ ++ insertEntry k v l₂ := by
  induction l₁ with
  | nil => rfl
  | cons e l₁ ih =>
    rw [List.cons_append, insertEntry, if_pos (h e (by simp)),
      ih fun e' he' => h e' (by simp [he']), List.cons_append]

/-- Insertion stops before larger keys. -/
theorem insertEntry_append_right {k : κ} {v : α} {l₁ l₂ : List (κ × α)} (h : ∀ e ∈ l₂, k < e.1) :
    insertEntry k v (l₁ ++ l₂) = insertEntry k v l₁ ++ l₂ := by
  induction l₁ with
  | nil =>
    cases l₂ with
    | nil => rfl
    | cons e l₂ =>
      have he := h e (by simp)
      simp only [List.nil_append, insertEntry, if_neg (not_lt.2 he.le), if_neg he.ne',
        List.singleton_append]
  | cons e l₁ ih =>
    simp only [List.cons_append, insertEntry, ih]
    split_ifs <;> rfl

/-- Insertion at a key between two parts of the list. -/
theorem insertEntry_between {k : κ} {v : α} {l₁ l₂ : List (κ × α)} (h₁ : ∀ e ∈ l₁, e.1 < k)
    (h₂ : ∀ e ∈ l₂, k < e.1) : insertEntry k v (l₁ ++ l₂) = l₁ ++ (k, v) :: l₂ := by
  have h : insertEntry k v ([] ++ l₂) = [(k, v)] ++ l₂ := insertEntry_append_right h₂
  rw [insertEntry_append_left h₁]
  exact congrArg (l₁ ++ ·) h

/-- Insertion of a key that is there. -/
theorem insertEntry_replace {k : κ} {v w : α} {l₁ l₂ : List (κ × α)} (h₁ : ∀ e ∈ l₁, e.1 < k) :
    insertEntry k v (l₁ ++ (k, w) :: l₂) = l₁ ++ (k, v) :: l₂ := by
  rw [insertEntry_append_left h₁]
  simp [insertEntry]

theorem mem_insertEntry {k : κ} {v : α} {l : List (κ × α)} {e : κ × α}
    (h : e ∈ insertEntry k v l) : e = (k, v) ∨ e ∈ l := by
  induction l with
  | nil => exact Or.inl (by simpa [insertEntry] using h)
  | cons e' l ih =>
    rw [insertEntry] at h
    split_ifs at h
    · rcases List.mem_cons.1 h with rfl | h
      · exact Or.inr (by simp)
      · exact (ih h).imp id fun h => by simp [h]
    · rcases List.mem_cons.1 h with rfl | h
      · exact Or.inl rfl
      · exact Or.inr (by simp [h])
    · rcases List.mem_cons.1 h with rfl | h
      · exact Or.inl rfl
      · exact Or.inr h

theorem sortedKeys_insertEntry {k : κ} {v : α} {l : List (κ × α)} (h : SortedKeys l) :
    SortedKeys (insertEntry k v l) := by
  induction l with
  | nil => simp [insertEntry, SortedKeys]
  | cons e l ih =>
    obtain ⟨h1, h2⟩ := sortedKeys_cons.1 h
    rw [insertEntry]
    split_ifs with hlt heq
    · refine sortedKeys_cons.2 ⟨fun b hb => ?_, ih h2⟩
      rcases mem_insertEntry hb with rfl | hb
      · exact hlt
      · exact h1 b hb
    · exact sortedKeys_cons.2 ⟨fun b hb => heq ▸ h1 b hb, h2⟩
    · have hk : k < e.1 := lt_of_le_of_ne (not_lt.1 hlt) (Ne.symm heq)
      refine sortedKeys_cons.2 ⟨fun b hb => ?_, h⟩
      rcases List.mem_cons.1 hb with rfl | hb
      · exact hk
      · exact hk.trans (h1 b hb)

theorem length_insertEntry_of_notMem {k : κ} {v : α} {l : List (κ × α)} (h : ∀ e ∈ l, e.1 ≠ k) :
    (insertEntry k v l).length = l.length + 1 := by
  induction l with
  | nil => rfl
  | cons e l ih =>
    have ih := ih fun e' he' => h e' (by simp [he'])
    rw [insertEntry]
    split_ifs with hlt heq
    · simp [ih]
    · exact absurd heq (h e (by simp))
    · rfl

theorem length_insertEntry_of_mem {k : κ} {v w : α} {l : List (κ × α)} (hs : SortedKeys l)
    (h : (k, w) ∈ l) : (insertEntry k v l).length = l.length := by
  obtain ⟨l₁, l₂, rfl⟩ := List.append_of_mem h
  have h₁ := fun a ha => (sortedKeys_append.1 hs).2.2 a ha (k, w) (by simp)
  rw [insertEntry_replace h₁]
  simp

/-- Inserting keys in ascending order appends them. -/
theorem foldl_insertEntry {l l' : List (κ × α)} (h : SortedKeys (l' ++ l)) :
    l.foldl (fun m e => insertEntry e.1 e.2 m) l' = l' ++ l := by
  induction l generalizing l' with
  | nil => simp
  | cons e l ih =>
    have he : ∀ a ∈ l', a.1 < e.1 := fun a ha => (sortedKeys_append.1 h).2.2 a ha e (by simp)
    have hins : insertEntry e.1 e.2 l' = l' ++ [e] := by
      rw [← List.append_nil l', insertEntry_append_left he]
      simp [insertEntry]
    rw [List.foldl_cons, hins, ih (by simpa using h)]
    simp

section Lookup

theorem lookup_cons_if (k : κ) (e : κ × α) (l : List (κ × α)) :
    (e :: l).lookup k = if k = e.1 then some e.2 else l.lookup k := by
  rw [List.lookup_cons]
  by_cases h : k = e.1
  · simp [h]
  · have : (k == e.1) = false := by simpa using h
    simp [this, h]

theorem lookup_none_iff {k : κ} {l : List (κ × α)} :
    l.lookup k = none ↔ ∀ e ∈ l, e.1 ≠ k := by
  induction l with
  | nil => simp
  | cons e l ih =>
    rw [lookup_cons_if]
    by_cases h : k = e.1
    · simp [h]
    · simp [h, ih, Ne.symm h]

theorem lookup_append_of_notMem {k : κ} {l₁ l₂ : List (κ × α)} (h : ∀ e ∈ l₁, e.1 ≠ k) :
    (l₁ ++ l₂).lookup k = l₂.lookup k := by
  rw [List.lookup_append, lookup_none_iff.2 h, Option.none_or]

/-- Under distinct keys, an entry of the list is what its key looks up. -/
theorem lookup_of_mem {k : κ} {v : α} {l : List (κ × α)} (hs : SortedKeys l) (h : (k, v) ∈ l) :
    l.lookup k = some v := by
  obtain ⟨l₁, l₂, rfl⟩ := List.append_of_mem h
  rw [lookup_append_of_notMem fun e he => ((sortedKeys_append.1 hs).2.2 e he (k, v) (by simp)).ne,
    lookup_cons_if, if_pos rfl]

/-- Only the part of the list that can hold the key matters. -/
theorem lookup_between {k : κ} {l₁ l l₂ : List (κ × α)} (h₁ : ∀ e ∈ l₁, e.1 < k)
    (h₂ : ∀ e ∈ l₂, k < e.1) : (l₁ ++ l ++ l₂).lookup k = l.lookup k := by
  rw [List.append_assoc, lookup_append_of_notMem fun e he => (h₁ e he).ne, List.lookup_append,
    lookup_none_iff.2 fun e he => (h₂ e he).ne', Option.or_none]

theorem lookup_insertEntry {k k' : κ} {v : α} {l : List (κ × α)} :
    (insertEntry k v l).lookup k' = if k' = k then some v else l.lookup k' := by
  induction l with
  | nil => simp [insertEntry, lookup_cons_if]
  | cons e l ih =>
    rw [insertEntry]
    split_ifs with hlt heq h h
    all_goals simp only [lookup_cons_if, ih]
    all_goals grind

theorem lookup_eraseKey {k k' : κ} {l : List (κ × α)} :
    (eraseKey k l).lookup k' = if k' = k then none else l.lookup k' := by
  induction l with
  | nil => simp [eraseKey]
  | cons e l ih =>
    unfold eraseKey at ih ⊢
    by_cases he : e.1 = k
    · rw [List.filter_cons_of_neg (by simp [he]), ih, lookup_cons_if, he]
      split_ifs <;> rfl
    · rw [List.filter_cons_of_pos (by simp [he]), lookup_cons_if, lookup_cons_if, ih]
      by_cases h : k' = k
      · simp [h, Ne.symm he]
      · simp [h]

theorem lookup_isSome_iff {k : κ} {l : List (κ × α)} :
    (l.lookup k).isSome ↔ ∃ v, (k, v) ∈ l := by
  rw [← not_iff_not, Option.not_isSome_iff_eq_none, lookup_none_iff]
  constructor
  · rintro h ⟨v, hv⟩; exact h _ hv rfl
  · rintro h ⟨k', v⟩ hv rfl; exact h ⟨v, hv⟩

theorem lookup_updateKey {k k' : κ} {v : α} {l : List (κ × α)} :
    (updateKey k v l).lookup k' =
      if k' = k then (l.lookup k).map fun _ => v else l.lookup k' := by
  induction l with
  | nil => simp [updateKey]
  | cons e l ih =>
    unfold updateKey at ih ⊢
    rw [List.map_cons, lookup_cons_if, lookup_cons_if, lookup_cons_if, ih]
    by_cases he : e.1 = k
    · subst he
      by_cases h : k' = e.1
      · simp [h]
      · simp [h]
    · by_cases h : k' = k
      · subst h; simp [he, Ne.symm he]
      · simp [h, he]

theorem length_eraseKey_lt {k : κ} {l : List (κ × α)} (h : (l.lookup k).isSome) :
    (eraseKey k l).length < l.length := by
  obtain ⟨v, hv⟩ := lookup_isSome_iff.1 h
  exact List.length_filter_lt_length_iff_exists.2 ⟨_, hv, by simp⟩

theorem mem_of_lookup {k : κ} {v : α} {l : List (κ × α)} (h : l.lookup k = some v) : (k, v) ∈ l := by
  induction l with
  | nil => simp at h
  | cons e l ih =>
    rw [lookup_cons_if] at h
    split_ifs at h with hk
    · cases h; subst hk; simp
    · exact List.mem_cons_of_mem _ (ih h)

/-- A sorted association list is determined by what its keys look up. -/
theorem sortedKeys_ext : ∀ {l₁ l₂ : List (κ × α)}, SortedKeys l₁ → SortedKeys l₂ →
    (∀ k, l₁.lookup k = l₂.lookup k) → l₁ = l₂
  | [], [], _, _, _ => rfl
  | [], e :: l, _, _, h => by have := h e.1; simp [lookup_cons_if] at this
  | e :: l, [], _, _, h => by have := h e.1; simp [lookup_cons_if] at this
  | e :: l₁, e' :: l₂, h₁, h₂, h => by
    obtain ⟨hb₁, hs₁⟩ := sortedKeys_cons.1 h₁
    obtain ⟨hb₂, hs₂⟩ := sortedKeys_cons.1 h₂
    have hnone₁ : ∀ k ≤ e.1, l₁.lookup k = none := fun k hk =>
      lookup_none_iff.2 fun b hb => (lt_of_le_of_lt hk (hb₁ b hb)).ne'
    have hnone₂ : ∀ k ≤ e'.1, l₂.lookup k = none := fun k hk =>
      lookup_none_iff.2 fun b hb => (lt_of_le_of_lt hk (hb₂ b hb)).ne'
    -- the smaller of the two first keys is found in both lists
    have hkey : e.1 = e'.1 := by
      rcases lt_trichotomy e.1 e'.1 with hlt | heq | hgt
      · have := h e.1
        rw [lookup_cons_if, if_pos rfl, lookup_cons_if, if_neg hlt.ne, hnone₂ _ hlt.le] at this
        cases this
      · exact heq
      · have := h e'.1
        rw [lookup_cons_if, if_neg hgt.ne, hnone₁ _ hgt.le, lookup_cons_if, if_pos rfl] at this
        cases this
    have hval : e.2 = e'.2 := by
      have := h e.1
      rw [lookup_cons_if, if_pos rfl, lookup_cons_if, if_pos hkey] at this
      exact Option.some.inj this
    have htail : l₁ = l₂ := sortedKeys_ext hs₁ hs₂ fun k => by
      by_cases hk : k = e.1
      · rw [hnone₁ k hk.le, hnone₂ k (hk.trans hkey).le]
      · have := h k
        rwa [lookup_cons_if, if_neg hk, lookup_cons_if, if_neg (hkey ▸ hk)] at this
    rw [htail, Prod.ext hkey hval]

theorem sortedKeys_eraseKey {k : κ} {l : List (κ × α)} (hs : SortedKeys l) :
    SortedKeys (eraseKey k l) := List.Pairwise.filter _ hs

theorem eraseKey_of_lookup_none {k : κ} {l : List (κ × α)} (h : l.lookup k = none) :
    eraseKey k l = l := by
  rw [lookup_none_iff] at h
  exact List.filter_eq_self.2 fun e he => by simpa using h e he

end Lookup

end Assoc

end Lib
