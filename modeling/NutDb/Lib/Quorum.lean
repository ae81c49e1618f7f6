/-
  Majorities of a finite set: any two of them have a member in common.  Two sets with
  half of the members need not have one (`half_meet_iff`).
-/
import Mathlib.Algebra.Group.Nat.Even
import Mathlib.Data.Finset.Card

namespace Lib

variable {N : Type} {ids : Finset N} {P R : N → Prop}

/-- More than half of the nodes satisfy `P`. -/
def Majority (ids : Finset N) (P : N → Prop) : Prop :=
  ∃ Q ⊆ ids, ids.card < 2 * Q.card ∧ ∀ q ∈ Q, P q

theorem Majority.mono (h : Majority ids P) (hPR : ∀ n ∈ ids, P n → R n) : Majority ids R := by
  obtain ⟨Q, hQ, hcard, hP⟩ := h
  exact ⟨Q, hQ, hcard, fun q hq => hPR q (hQ hq) (hP q hq)⟩

/-- **Two majorities meet.** -/
theorem Majority.meet [DecidableEq N] (h : Majority ids P) (h' : Majority ids R) : ∃ n ∈ ids, P n ∧ R n := by
  obtain ⟨Q, hQ, hcard, hP⟩ := h
  obtain ⟨Q', hQ', hcard', hR⟩ := h'
  have hunion : (Q ∪ Q').card ≤ ids.card := Finset.card_le_card (Finset.union_subset hQ hQ')
  have hsum := Finset.card_union_add_card_inter Q Q'
  obtain ⟨n, hn⟩ : (Q ∩ Q').Nonempty := Finset.card_pos.1 (by omega)
  obtain ⟨h1, h2⟩ := Finset.mem_inter.1 hn
  exact ⟨n, hQ h1, hP n h1, hR n h2⟩

theorem Majority.filter [DecidablePred P] (h : Majority ids P) : ids.card < 2 * (ids.filter P).card := by
  obtain ⟨Q, hQ, hcard, hP⟩ := h
  have : Q ⊆ ids.filter P := fun q hq => Finset.mem_filter.2 ⟨hQ hq, hP q hq⟩
  have := Finset.card_le_card this
  omega

/-! ## Halves -/

/-- At least half of the nodes, and not none. -/
structure Half (ids A : Finset N) : Prop where
  subset : A ⊆ ids
  nonempty : A.Nonempty
  card : ids.card ≤ A.card * 2

/-- **When halves meet**: exactly if the number of nodes is odd, or there are none. -/
theorem half_meet_iff [DecidableEq N] :
    (∀ A B, Half ids A → Half ids B → (A ∩ B).Nonempty) ↔ (Even ids.card → ids = ∅) := by
  constructor
  · rintro h ⟨k, hk⟩
    by_contra hne
    have hpos : 0 < ids.card := Finset.card_pos.2 (Finset.nonempty_iff_ne_empty.2 hne)
    -- one half, and the other
    obtain ⟨A, hA, hcard⟩ := Finset.exists_subset_card_eq (show k ≤ ids.card by omega)
    have hrest : (ids \ A).card = k := by
      rw [Finset.card_sdiff_of_subset hA]
      omega
    have hhalf : Half ids A := ⟨hA, Finset.card_pos.1 (by omega), by omega⟩
    have hother : Half ids (ids \ A) := ⟨Finset.sdiff_subset, Finset.card_pos.1 (by omega), by omega⟩
    obtain ⟨n, hn⟩ := h A (ids \ A) hhalf hother
    rw [Finset.inter_sdiff_self] at hn
    exact Finset.notMem_empty n hn
  · intro h A B hA hB
    by_contra hempty
    have hdisj : Disjoint A B := by
      rwa [Finset.disjoint_iff_inter_eq_empty, ← Finset.not_nonempty_iff_eq_empty]
    have hunion := Finset.card_le_card (Finset.union_subset hA.subset hB.subset)
    rw [Finset.card_union_of_disjoint hdisj] at hunion
    have hcardA := hA.card
    have hcardB := hB.card
    have hids : ids = ∅ := h ⟨A.card, by omega⟩
    exact hA.nonempty.ne_empty (Finset.subset_empty.1 (hids ▸ hA.subset))

/-! ## Majorities of lists -/

section Lists
variable [DecidableEq N] {l : List N} {n : N} {p : N → Bool}

/-- More than half of the members of a list are a majority. -/
theorem majority_of_filter (hnodup : l.Nodup) (hlen : (l.filter p).length * 2 > l.length)
    (hp : ∀ q ∈ l, p q = true → P q) : Majority l.toFinset P := by
  refine ⟨(l.filter p).toFinset, fun q hq => ?_, ?_, fun q hq => ?_⟩
  · exact List.mem_toFinset.2 (List.mem_filter.1 (List.mem_toFinset.1 hq)).1
  · rw [List.toFinset_card_of_nodup hnodup, List.toFinset_card_of_nodup (hnodup.filter p)]
    omega
  · obtain ⟨h1, h2⟩ := List.mem_filter.1 (List.mem_toFinset.1 hq)
    exact hp q h1 h2

theorem length_others (hnodup : l.Nodup) (hn : n ∈ l) :
    (l.filter fun q => decide (q ≠ n)).length + 1 = l.length := by
  have hfilter : (l.filter fun q => decide (q ≠ n)) = l.erase n := by
    rw [hnodup.erase_eq_filter n]
    exact List.filter_congr fun q _ => by by_cases hq : q = n <;> simp [hq]
  have hpos := List.length_pos_of_mem hn
  rw [hfilter, List.length_erase_of_mem hn]
  omega

/-- A member and those of the others that satisfy a condition. -/
theorem majority_of_others (hnodup : l.Nodup) (hn : n ∈ l)
    (hlen : (1 + ((l.filter fun q => decide (q ≠ n)).filter p).length) * 2 > l.length) (hP : P n)
    (hp : ∀ q ∈ l, q ≠ n → p q = true → P q) : Majority l.toFinset P := by
  have hmem : ∀ q ∈ (l.filter fun q => decide (q ≠ n)).filter p, q ∈ l ∧ q ≠ n ∧ p q = true := by
    intro q hq
    obtain ⟨h1, h2⟩ := List.mem_filter.1 hq
    obtain ⟨h3, h4⟩ := List.mem_filter.1 h1
    exact ⟨h3, of_decide_eq_true h4, h2⟩
  have hnot : n ∉ ((l.filter fun q => decide (q ≠ n)).filter p).toFinset :=
    fun h => (hmem n (List.mem_toFinset.1 h)).2.1 rfl
  refine ⟨insert n ((l.filter fun q => decide (q ≠ n)).filter p).toFinset, ?_, ?_, fun q hq => ?_⟩
  · refine Finset.insert_subset (List.mem_toFinset.2 hn) fun q hq => ?_
    exact List.mem_toFinset.2 (hmem q (List.mem_toFinset.1 hq)).1
  · rw [List.toFinset_card_of_nodup hnodup, Finset.card_insert_of_notMem hnot,
      List.toFinset_card_of_nodup ((hnodup.filter _).filter _)]
    omega
  · rcases Finset.mem_insert.1 hq with rfl | hq
    · exact hP
    · obtain ⟨h1, h2, h3⟩ := hmem q (List.mem_toFinset.1 hq)
      exact hp q h1 h2 h3

end Lists

end Lib
