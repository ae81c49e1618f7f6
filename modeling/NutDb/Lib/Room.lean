/-
  Vectors for which there may be no room.

  A vector grows until there is no room for its elements, and then the code
  stops.  `Appends room f l`: the computation `f` appends the elements `l` to the
  vector that it is given, or stops if there is no room for them.  Such
  computations compose, because a vector needs no more room than a longer one
  that begins with it (`Closed`).
-/
import NutDb.Lib.Outcome

namespace Lib

/-- `Vec::push`, where `room` says which vectors there is room for. -/
def pushIn {α : Type} (room : List α → Bool) (out : List α) (a : α) : Res (List α) :=
  if room (out ++ [a]) = true then .ok (out ++ [a]) else .error (.panic .capacity)

/-- A vector needs no more room than a longer one. -/
def Closed {α : Type} (room : List α → Bool) : Prop := ∀ out a, room (out ++ [a]) = true → room out = true

/-- The computation appends the elements to its vector, if there is room for them. -/
def Appends {α : Type} (room : List α → Bool) (f : List α → Res (List α)) (l : List α) : Prop :=
  ∀ out, room out = true → f out = if room (out ++ l) = true then .ok (out ++ l) else .error (.panic .capacity)

section Room
variable {α : Type} {room : List α → Bool} {f g : List α → Res (List α)} {l l' out : List α}

theorem closed_true : Closed fun _ : List α => true := fun _ _ h => h

theorem Closed.append (hroom : Closed room) (h : room (out ++ l) = true) : room out = true := by
  induction l using List.reverseRecOn with
  | nil => rwa [List.append_nil] at h
  | append_singleton l a ih =>
    rw [← List.append_assoc] at h
    exact ih (hroom _ _ h)

namespace Appends

/-- Where there is room, the elements are appended. -/
theorem eq_ok (h : Appends room f l) (hroom : Closed room) (hout : room (out ++ l) = true) :
    f out = .ok (out ++ l) := by
  rw [h out (hroom.append hout), if_pos hout]

theorem eq_capacity (h : Appends room f l) (hout : room out = true) (hfull : room (out ++ l) ≠ true) :
    f out = .error (.panic .capacity) := by
  rw [h out hout, if_neg hfull]

theorem nil : Appends room (fun out => .ok out) [] := by
  intro out hout
  rw [List.append_nil, if_pos hout]

theorem push (a : α) : Appends room (fun out => pushIn room out a) [a] := fun _ _ => rfl

/-- **One after the other**: the elements of the first, and then those of the second. -/
theorem bind (hf : Appends room f l) (hg : Appends room g l') (hroom : Closed room) :
    Appends room (fun out => f out >>= g) (l ++ l') := by
  intro out hout
  dsimp only
  rw [hf out hout, ← List.append_assoc]
  by_cases hl : room (out ++ l) = true
  · rw [if_pos hl]
    exact hg _ hl
  · rw [if_neg hl, if_neg fun h => hl (hroom.append h)]
    rfl

/-- A loop appends what its turns append. -/
theorem range_succ {turn : List α → ℕ → Res (List α)} {k : ℕ}
    (h : Appends room (fun out => (List.range k).foldlM turn out) l)
    (hturn : Appends room (fun out => turn out k) l') (hroom : Closed room) :
    Appends room (fun out => (List.range (k + 1)).foldlM turn out) (l ++ l') := by
  intro out hout
  have hloop : (List.range (k + 1)).foldlM turn out =
      (List.range k).foldlM turn out >>= fun out => turn out k := by
    rw [List.range_succ, List.foldlM_append]
    simp only [List.foldlM_cons, List.foldlM_nil, bind_pure]
  exact hloop.trans (h.bind hturn hroom out hout)

end Appends

end Room

end Lib
