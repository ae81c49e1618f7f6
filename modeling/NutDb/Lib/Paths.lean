/-
  Paths in a graph.

  `Deep r n a`: there is a path of `n` steps from the vertex `a`.  `Cyclic r a`: a
  cycle can be reached from `a`.  From a cycle there are paths of every length,
  and a path with as many steps as there are vertices passes through a cycle
  (`deep_iff_cyclic`).  This is what bounds a recursion along the edges.
-/
import Mathlib.Logic.Relation
import Mathlib.Data.List.Basic

namespace Lib

open Relation

/-- There is a path of so many steps. -/
def Deep {α : Type} (r : α → α → Prop) : ℕ → α → Prop
  | 0, _ => True
  | n + 1, a => ∃ b, r a b ∧ Deep r n b

/-- A vertex can be reached that can be reached again from itself. -/
def Cyclic {α : Type} (r : α → α → Prop) (a : α) : Prop := ∃ b, ReflTransGen r a b ∧ TransGen r b b

section Paths
variable {α : Type} {r : α → α → Prop} {a b : α} {n : ℕ}

theorem Cyclic.of_edge (hab : r a b) (h : Cyclic r b) : Cyclic r a := by
  obtain ⟨c, hbc, hcc⟩ := h
  exact ⟨c, .head hab hbc, hcc⟩

/-- Before a cycle there is always a step to take. -/
theorem Cyclic.edge (h : Cyclic r a) : ∃ b, r a b ∧ Cyclic r b := by
  obtain ⟨c, hac, hcc⟩ := h
  rcases ReflTransGen.cases_head hac with rfl | ⟨b, hab, hbc⟩
  · obtain ⟨b, hab, hba⟩ := TransGen.head'_iff.1 hcc
    exact ⟨b, hab, a, hba, hcc⟩
  · exact ⟨b, hab, c, hbc, hcc⟩

theorem Cyclic.deep (h : Cyclic r a) (n : ℕ) : Deep r n a := by
  induction n generalizing a with
  | zero => trivial
  | succ n ih =>
    obtain ⟨b, hab, hb⟩ := h.edge
    exact ⟨b, hab, ih hb⟩

/-- Without a cycle a path has fewer steps than there are vertices: it does not come back to the vertex
    that it leaves. -/
theorem Deep.lt_length [DecidableEq α] {vs : List α} (h : Deep r n a) (hvs : ∀ b, ReflTransGen r a b → b ∈ vs)
    (hcyclic : ¬ Cyclic r a) : n < vs.length := by
  induction n generalizing a vs with
  | zero => exact List.length_pos_of_mem (hvs a .refl)
  | succ n ih =>
    obtain ⟨b, hab, hb⟩ := h
    have hlt : n < (vs.erase a).length := by
      refine ih hb (fun c hbc => ?_) fun hb => hcyclic (hb.of_edge hab)
      refine (List.mem_erase_of_ne ?_).2 (hvs c (.head hab hbc))
      rintro rfl
      exact hcyclic ⟨c, .refl, .head' hab hbc⟩
    rw [List.length_erase_of_mem (hvs a .refl)] at hlt
    omega

/-- **A path with as many steps as there are vertices** meets a cycle, and there is one from every cycle. -/
theorem deep_iff_cyclic [DecidableEq α] {vs : List α} (ha : a ∈ vs) (hvs : ∀ b ∈ vs, ∀ c, r b c → c ∈ vs)
    (hn : vs.length ≤ n) : Deep r n a ↔ Cyclic r a := by
  refine ⟨fun h => ?_, fun h => h.deep n⟩
  by_contra hcyclic
  have hreach : ∀ b, ReflTransGen r a b → b ∈ vs := by
    intro b hab
    induction hab with
    | refl => exact ha
    | tail _ hbc ih => exact hvs _ ih _ hbc
  exact absurd (h.lt_length hreach hcyclic) (Nat.not_lt.2 hn)

end Paths

end Lib
