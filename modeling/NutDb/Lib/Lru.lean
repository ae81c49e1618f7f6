/-
  Least recently used.

  The keys in the order of their last use, the newest one first.  A cache of the
  `n` keys that were used last can be kept up to date by itself (`take_use`), and
  with more room it has all that it has with less.
-/
import Mathlib.Data.List.Basic
import Mathlib.Data.List.Perm.Basic

namespace Lib

namespace Lru
variable {κ : Type} [DecidableEq κ]

/-- A key is used. -/
def use (k : κ) (l : List κ) : List κ := k :: l.erase k

/-- The keys that were used, the newest one first. -/
def byUse (uses : List κ) : List κ := uses.foldl (fun l k => use k l) []

section Use
variable {k : κ} {l : List κ}

theorem nodup_use (h : l.Nodup) : (use k l).Nodup :=
  List.nodup_cons.2 ⟨h.not_mem_erase, h.erase k⟩

/-- A key that is in the cache takes nobody's place. -/
theorem take_use_of_mem {n : ℕ} (hk : k ∈ l) (hlen : l.length ≤ n) : (use k l).take n = use k l := by
  refine List.take_of_length_le ?_
  have hpos := List.length_pos_of_mem hk
  rw [use, List.length_cons, List.length_erase_of_mem hk]
  omega

/-- A key that is not in the cache takes the place of the last one. -/
theorem take_use_of_notMem {n : ℕ} (hk : k ∉ l) (hn : 0 < n) :
    (use k l).take n = use k (l.take (n - 1)) := by
  obtain ⟨m, rfl⟩ : ∃ m, n = m + 1 := ⟨n - 1, by omega⟩
  rw [use, use, List.take_succ_cons, List.erase_of_not_mem hk, Nat.add_sub_cancel,
    List.erase_of_not_mem fun h => hk (List.mem_of_mem_take h)]

theorem take_erase_take (k : κ) (l : List κ) : ∀ n, ((l.take (n + 1)).erase k).take n = (l.erase k).take n := by
  induction l with
  | nil => exact fun n => by simp
  | cons x l ih =>
    intro n
    rw [List.take_succ_cons]
    by_cases hx : x = k
    · rw [hx, List.erase_cons_head, List.erase_cons_head, List.take_take, Nat.min_self]
    · rw [List.erase_cons_tail (by simpa using hx), List.erase_cons_tail (by simpa using hx)]
      cases n with
      | zero => rfl
      | succ n => rw [List.take_succ_cons, List.take_succ_cons, ih n]

/-- **A use, in a cache of `n` keys.** -/
theorem take_use (n : ℕ) : (use k (l.take n)).take n = (use k l).take n := by
  cases n with
  | zero => rfl
  | succ n => rw [use, use, List.take_succ_cons, List.take_succ_cons, take_erase_take]

end Use

end Lru

end Lib
