/-
  Stable sorting.

  `StableSort le l l'` says what a stable sort of `l` returns.  The order has to
  be total and transitive on the elements of the list only
  (`stableSort_mergeSort`).
-/
import Mathlib.Data.List.Basic

namespace Lib

variable {α : Type} {le : α → α → Prop} {l l' : List α}

/-- `l'` has the elements of `l`, in order; those that `le` does not tell apart are in the order in
    which they were. -/
structure StableSort (le : α → α → Prop) (l l' : List α) : Prop where
  perm : l'.Perm l
  sorted : l'.Pairwise le
  stable : ∀ p : α → Bool, (∀ a ∈ l, ∀ b ∈ l, p a = true → p b = true → le a b) →
    l'.filter p = l.filter p

/-- It is enough that sublists that are in order stay as they are. -/
theorem StableSort.of_sublist (hperm : l'.Perm l) (hsorted : l'.Pairwise le)
    (h : ∀ c : List α, c.Pairwise le → c.Sublist l → c.Sublist l') : StableSort le l l' := by
  refine ⟨hperm, hsorted, fun p hp => ?_⟩
  have hle : (l.filter p).Pairwise le := by
    refine List.pairwise_of_forall_mem_list fun a ha b hb => ?_
    obtain ⟨ha, hpa⟩ := List.mem_filter.1 ha
    obtain ⟨hb, hpb⟩ := List.mem_filter.1 hb
    exact hp a ha b hb hpa hpb
  have hsub : (l.filter p).Sublist (l'.filter p) := by
    have := (h _ hle List.filter_sublist).filter p
    simpa using this
  exact (hsub.eq_of_length (hperm.filter p).length_eq.symm).symm

/-- **A merge sort is stable.** -/
theorem stableSort_mergeSort {r : α → α → Bool} (hr : ∀ a ∈ l, ∀ b ∈ l, r a b = true ↔ le a b)
    (htrans : ∀ a ∈ l, ∀ b ∈ l, ∀ c ∈ l, le a b → le b c → le a c)
    (htotal : ∀ a ∈ l, ∀ b ∈ l, le a b ∨ le b a) : StableSort le l (l.mergeSort r) := by
  -- the order of the elements of the list, on which it is total and transitive
  let s : { a // a ∈ l } → { a // a ∈ l } → Bool := fun a b => r a b
  have hs : ∀ a b, s a b = true ↔ le a b := fun a b => hr a a.2 b b.2
  have strans : ∀ a b c, s a b = true → s b c = true → s a c = true := by
    intro a b c hab hbc
    rw [hs] at hab hbc ⊢
    exact htrans a a.2 b b.2 c c.2 hab hbc
  have stotal : ∀ a b, (s a b || s b a) = true := by
    intro a b
    rw [Bool.or_eq_true, hs, hs]
    exact htotal a a.2 b b.2
  have hmap : (l.attach.mergeSort s).map Subtype.val = l.mergeSort r := by
    rw [List.map_mergeSort (s := r) fun a _ b _ => rfl, List.attach_map_subtype_val]
  rw [← hmap]
  refine .of_sublist ?_ ?_ fun c hc hsub => ?_
  · rw [hmap]
    exact List.mergeSort_perm l r
  · refine List.pairwise_map.2 ((List.pairwise_mergeSort strans stotal _).imp fun hab => ?_)
    exact (hs _ _).1 hab
  · obtain ⟨c', hsub', rfl⟩ : ∃ c' : List { a // a ∈ l }, c'.Sublist l.attach ∧ c'.map Subtype.val = c := by
      rw [← List.attach_map_subtype_val l] at hsub
      obtain ⟨c', hsub', rfl⟩ := List.sublist_map_iff.1 hsub
      exact ⟨c', hsub', rfl⟩
    refine (List.sublist_mergeSort strans stotal ?_ hsub').map _
    exact (List.pairwise_map.1 hc).imp fun hab => (hs _ _).2 hab

end Lib
