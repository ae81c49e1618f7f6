/-
  Versioned records that are staged on a majority before they are committed.

  Every node keeps one record for each key.  A node takes a record when it
  reaches the version of the record by storing it; it takes at most one record
  of a version.  A record is chosen when a majority has taken it, and only
  chosen records are committed, so that committed records of one version agree
  (`Sound.agree`).

  `take` and `adopt` are the two ways in which a node changes a record.  What a
  node backs, what is chosen and what is settled survives both (`Grows`).
-/
import NutDb.Lib.Quorum
import Mathlib.Data.Set.Insert
import Mathlib.Logic.Function.Basic

namespace Lib

/-- A record of a key. -/
structure Versioned (V : Type) where
  version : ℕ
  committed : Bool
  content : V

/-- The records of the nodes, and which records they have taken. -/
structure Replicas (N K V : Type) where
  record : N → K → Option (Versioned V)
  took : Set (N × K × ℕ × V)

namespace Replicas

variable {N K V : Type} {ids : Finset N}
variable {s s' : Replicas N K V} {n : N} {k : K} {ver : ℕ} {c c' : V}

/-- The version of a record, zero without one. -/
def version (s : Replicas N K V) (n : N) (k : K) : ℕ := ((s.record n k).map Versioned.version).getD 0

/-- A majority has taken the record. -/
def Chosen (ids : Finset N) (s : Replicas N K V) (k : K) (ver : ℕ) (c : V) : Prop :=
  Majority ids fun n => (n, k, ver, c) ∈ s.took

/-- The node has reached the version, and it took the record or holds it as chosen. -/
def Backs (ids : Finset N) (s : Replicas N K V) (n : N) (k : K) (ver : ℕ) (c : V) : Prop :=
  ver ≤ s.version n k ∧ ((n, k, ver, c) ∈ s.took ∨
    Chosen ids s k ver c ∧ ∀ r, s.record n k = some r → r.version = ver → r.committed = true)

/-- The node holds the record as committed, or a record of a newer version. -/
def Settled (s : Replicas N K V) (n : N) (k : K) (ver : ℕ) (c : V) : Prop :=
  s.record n k = some ⟨ver, true, c⟩ ∨ ver < s.version n k

/-- What the records have in common with what was taken. -/
structure Sound (ids : Finset N) (s : Replicas N K V) : Prop where
  pos : ∀ {n k ver c}, (n, k, ver, c) ∈ s.took → 0 < ver
  reached : ∀ {n k ver c}, (n, k, ver, c) ∈ s.took → ver ≤ s.version n k
  unique : ∀ {n k ver c c'}, (n, k, ver, c) ∈ s.took → (n, k, ver, c') ∈ s.took → c = c'
  staged : ∀ {n k r}, s.record n k = some r → r.committed = false →
    (n, k, r.version, r.content) ∈ s.took
  chosen : ∀ {n k r}, s.record n k = some r → r.committed = true →
    Chosen ids s k r.version r.content

/-- Records of a later state: a record is the old one, of a newer version, or committed. -/
structure Grows (s s' : Replicas N K V) : Prop where
  took : s.took ⊆ s'.took
  record : ∀ n k, s'.record n k = s.record n k ∨ s.version n k < s'.version n k ∨
    s.version n k = s'.version n k ∧ ∃ r, s'.record n k = some r ∧ r.committed = true

/-! ## Reading records -/

theorem version_of_record {r : Versioned V} (h : s.record n k = some r) : s.version n k = r.version := by
  rw [version, h]
  rfl

theorem version_congr (h : s'.record n k = s.record n k) : s'.version n k = s.version n k := by
  rw [version, h, version]

/-- A node that has reached a version has a record. -/
theorem record_of_reached (h : 0 < ver) (hver : ver ≤ s.version n k) :
    ∃ r, s.record n k = some r ∧ ver ≤ r.version := by
  cases hr : s.record n k with
  | none =>
    rw [version, hr] at hver
    exact absurd (lt_of_lt_of_le h hver) (lt_irrefl 0)
  | some r => exact ⟨r, rfl, by rwa [version_of_record hr] at hver⟩

/-! ## Growth -/

namespace Grows

theorem refl (s : Replicas N K V) : Grows s s := ⟨fun _ h => h, fun _ _ => Or.inl rfl⟩

theorem version_le (h : Grows s s') (n : N) (k : K) : s.version n k ≤ s'.version n k := by
  rcases h.record n k with heq | hlt | ⟨heq, -⟩
  · exact (version_congr heq).ge
  · exact hlt.le
  · exact heq.le

theorem trans {s'' : Replicas N K V} (h : Grows s s') (h' : Grows s' s'') : Grows s s'' := by
  refine ⟨fun x hx => h'.took (h.took hx), fun n k => ?_⟩
  rcases h'.record n k with heq | hlt | ⟨hver, hcom⟩
  · rcases h.record n k with heq₁ | hlt₁ | ⟨hver₁, hcom₁⟩
    · exact Or.inl (heq.trans heq₁)
    · exact Or.inr (Or.inl (hlt₁.trans_eq (version_congr heq).symm))
    · exact Or.inr (Or.inr ⟨hver₁.trans (version_congr heq).symm, by rwa [heq]⟩)
  · exact Or.inr (Or.inl ((h.version_le n k).trans_lt hlt))
  · rcases (h.version_le n k).lt_or_eq with hlt₁ | heq₁
    · exact Or.inr (Or.inl (hlt₁.trans_eq hver))
    · exact Or.inr (Or.inr ⟨heq₁.trans hver, hcom⟩)

end Grows

theorem Chosen.mono (h : Chosen ids s k ver c) (ht : s.took ⊆ s'.took) : Chosen ids s' k ver c :=
  Majority.mono h fun _ _ hn => ht hn

theorem Backs.grows (h : Backs ids s n k ver c) (hg : Grows s s') : Backs ids s' n k ver c := by
  obtain ⟨hver, hback⟩ := h
  refine ⟨hver.trans (hg.version_le n k), ?_⟩
  rcases hback with htook | ⟨hchosen, hcom⟩
  · exact Or.inl (hg.took htook)
  · refine Or.inr ⟨hchosen.mono hg.took, fun r hr heq => ?_⟩
    rcases hg.record n k with hsame | hlt | ⟨-, r', hr', hcom'⟩
    · exact hcom r (hsame ▸ hr) heq
    · rw [version_of_record hr, heq] at hlt
      omega
    · rw [hr] at hr'
      cases hr'
      exact hcom'

namespace Sound

/-- A node backs the record that it holds. -/
theorem backs_of_record (h : Sound ids s) {r : Versioned V} (hr : s.record n k = some r) :
    Backs ids s n k r.version r.content := by
  refine ⟨(version_of_record hr).ge, ?_⟩
  cases hcom : r.committed with
  | false => exact Or.inl (h.staged hr hcom)
  | true =>
    refine Or.inr ⟨h.chosen hr hcom, fun r' hr' _ => ?_⟩
    rw [hr] at hr'
    cases hr'
    exact hcom

theorem chosen_of_backs (hb : Majority ids fun n => Backs ids s n k ver c) : Chosen ids s k ver c := by
  by_cases hex : Chosen ids s k ver c
  · exact hex
  · exact hb.mono fun n _ ⟨_, hn⟩ => hn.resolve_right fun hc => hex hc.1

section Unique
variable [DecidableEq N]

/-- **At most one record of a version is chosen.** -/
theorem chosen_unique (h : Sound ids s) (hc : Chosen ids s k ver c) (hc' : Chosen ids s k ver c') :
    c = c' := by
  obtain ⟨n, -, h1, h2⟩ := Majority.meet hc hc'
  exact h.unique h1 h2

/-- **Committed records of one version agree.** -/
theorem agree (h : Sound ids s) {n n' : N} {r r' : Versioned V} (hr : s.record n k = some r)
    (hr' : s.record n' k = some r') (hcom : r.committed = true) (hcom' : r'.committed = true)
    (hver : r.version = r'.version) : r.content = r'.content :=
  h.chosen_unique (h.chosen hr hcom) (hver ▸ h.chosen hr' hcom')

/-- What a node holds at the version of a chosen record that it backs. -/
theorem content_of_backs (h : Sound ids s) (hc : Chosen ids s k ver c) (hb : Backs ids s n k ver c)
    {r : Versioned V} (hr : s.record n k = some r) (hver : r.version = ver) : r.content = c := by
  subst hver
  cases hcom : r.committed with
  | true => exact h.chosen_unique (h.chosen hr hcom) hc
  | false =>
    rcases hb.2 with htook | ⟨-, hall⟩
    · exact h.unique (h.staged hr hcom) htook
    · exact absurd (hall r hr rfl) (by rw [hcom]; exact Bool.false_ne_true)

/-- A settled record stays settled. -/
theorem settled_grows (h : Sound ids s') (hg : Grows s s') (hc : Chosen ids s' k ver c)
    (hs : Settled s n k ver c) : Settled s' n k ver c := by
  rcases hs with hrec | hlt
  · have hver : s.version n k = ver := version_of_record hrec
    rcases hg.record n k with hsame | hlt | ⟨heq, r, hr, hcom⟩
    · exact Or.inl (hsame.trans hrec)
    · exact Or.inr (hver ▸ hlt)
    · have hrv : r.version = ver := by rw [← version_of_record hr, ← heq, hver]
      have hrc : r.content = c := h.chosen_unique (h.chosen hr hcom) (by rwa [hrv])
      refine Or.inl (hr.trans (congrArg some ?_))
      rw [← hrv, ← hrc, ← hcom]
  · exact Or.inr (hlt.trans_le (hg.version_le n k))

end Unique

end Sound

/-! ## Steps -/

section Steps
variable [DecidableEq N] [DecidableEq K]

/-- A node stores a record. -/
def adopt (s : Replicas N K V) (n : N) (k : K) (r : Versioned V) : Replicas N K V :=
  { s with record := Function.update s.record n (Function.update (s.record n) k (some r)) }

/-- A node stores a record that it takes. -/
def take (s : Replicas N K V) (n : N) (k : K) (r : Versioned V) : Replicas N K V :=
  { s.adopt n k r with took := insert (n, k, r.version, r.content) s.took }

theorem adopt_self (s : Replicas N K V) (n : N) (k : K) (r : Versioned V) :
    (s.adopt n k r).record n k = some r := by
  change Function.update s.record n (Function.update (s.record n) k (some r)) n k = some r
  rw [Function.update_self, Function.update_self]

theorem adopt_of_ne (s : Replicas N K V) {n n' : N} {k k' : K} (r : Versioned V)
    (h : ¬ (n' = n ∧ k' = k)) : (s.adopt n k r).record n' k' = s.record n' k' := by
  change Function.update s.record n (Function.update (s.record n) k (some r)) n' k' = s.record n' k'
  by_cases hn : n' = n
  · subst hn
    rw [Function.update_self, Function.update_of_ne fun hk => h ⟨rfl, hk⟩]
  · rw [Function.update_of_ne hn]

theorem version_adopt_self (s : Replicas N K V) (n : N) (k : K) (r : Versioned V) :
    (s.adopt n k r).version n k = r.version := version_of_record (adopt_self s n k r)

theorem version_take_self (s : Replicas N K V) (n : N) (k : K) (r : Versioned V) :
    (s.take n k r).version n k = r.version := version_adopt_self s n k r

theorem Grows.adopt {r : Versioned V} (hver : s.version n k ≤ r.version) (hr : r.committed = true) :
    Grows s (s.adopt n k r) := by
  refine ⟨fun _ h => h, fun n' k' => ?_⟩
  by_cases hnk : n' = n ∧ k' = k
  · obtain ⟨rfl, rfl⟩ := hnk
    rw [version_adopt_self]
    rcases hver.lt_or_eq with hlt | heq
    · exact Or.inr (Or.inl hlt)
    · exact Or.inr (Or.inr ⟨heq, r, adopt_self s n' k' r, hr⟩)
  · exact Or.inl (adopt_of_ne s r hnk)

theorem Grows.take {r : Versioned V} (hver : s.version n k < r.version) : Grows s (s.take n k r) := by
  refine ⟨Set.subset_insert _ _, fun n' k' => ?_⟩
  by_cases hnk : n' = n ∧ k' = k
  · obtain ⟨rfl, rfl⟩ := hnk
    exact Or.inr (Or.inl (hver.trans_eq (version_adopt_self s n' k' r).symm))
  · exact Or.inl (adopt_of_ne s r hnk)

/-- **A node may adopt a chosen record** that is not older than its own. -/
theorem Sound.adopt (h : Sound ids s) {r : Versioned V} (hver : s.version n k ≤ r.version)
    (hcom : r.committed = true) (hc : Chosen ids s k r.version r.content) :
    Sound ids (s.adopt n k r) := by
  have hg := Grows.adopt hver hcom
  refine ⟨h.pos, fun ht => (h.reached ht).trans (hg.version_le _ _), h.unique, ?_, ?_⟩
  · intro n' k' r' hr' hcom'
    by_cases hnk : n' = n ∧ k' = k
    · obtain ⟨rfl, rfl⟩ := hnk
      rw [adopt_self] at hr'
      cases hr'
      rw [hcom] at hcom'
      cases hcom'
    · rw [adopt_of_ne s r hnk] at hr'
      exact h.staged hr' hcom'
  · intro n' k' r' hr' hcom'
    by_cases hnk : n' = n ∧ k' = k
    · obtain ⟨rfl, rfl⟩ := hnk
      rw [adopt_self] at hr'
      cases hr'
      exact hc
    · rw [adopt_of_ne s r hnk] at hr'
      exact h.chosen hr' hcom'

/-- **A node may take a record** that is newer than its own. -/
theorem Sound.take (h : Sound ids s) {r : Versioned V} (hver : s.version n k < r.version)
    (hc : r.committed = true → Chosen ids (s.take n k r) k r.version r.content) :
    Sound ids (s.take n k r) := by
  have hg := Grows.take hver
  have hself := version_take_self s n k r
  constructor
  · intro n' k' ver' c' ht
    rcases ht with heq | ht
    · cases heq
      omega
    · exact h.pos ht
  · intro n' k' ver' c' ht
    rcases ht with heq | ht
    · cases heq
      exact hself.ge
    · exact (h.reached ht).trans (hg.version_le _ _)
  · intro n' k' ver' c₁ c₂ h1 h2
    rcases h1 with h1 | h1
    · rcases h2 with h2 | h2
      · cases h1
        cases h2
        rfl
      · cases h1
        exact absurd (h.reached h2) (by omega)
    · rcases h2 with h2 | h2
      · cases h2
        exact absurd (h.reached h1) (by omega)
      · exact h.unique h1 h2
  · intro n' k' r' hr' hcom'
    by_cases hnk : n' = n ∧ k' = k
    · obtain ⟨rfl, rfl⟩ := hnk
      rw [show (s.take n' k' r).record n' k' = some r from adopt_self s n' k' r] at hr'
      cases hr'
      exact Set.mem_insert _ _
    · exact hg.took (h.staged ((adopt_of_ne s r hnk).symm.trans hr') hcom')
  · intro n' k' r' hr' hcom'
    by_cases hnk : n' = n ∧ k' = k
    · obtain ⟨rfl, rfl⟩ := hnk
      rw [show (s.take n' k' r).record n' k' = some r from adopt_self s n' k' r] at hr'
      cases hr'
      exact hc hcom'
    · exact (h.chosen ((adopt_of_ne s r hnk).symm.trans hr') hcom').mono hg.took

end Steps

end Replicas

end Lib
