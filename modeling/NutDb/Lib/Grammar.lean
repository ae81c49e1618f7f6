/-
  Predictive grammars.

  What is still to come stands on a stack, and the next token alone decides how
  the stack goes on (`after`).  So the tokens before a place have at most one
  stack (`standing`), and none if the grammar refuses one of them.  The rules that
  close a bracket are counted on the stack (`depth`).
-/
import Mathlib.Data.List.Basic
import Mathlib.Data.Nat.Init
import Mathlib.Order.Lattice
import Mathlib.Order.MinMax

namespace Lib

/-- What may stand at a place: `ν` are the names of the rules, `τ` the tokens. -/
inductive Grammar.Symbol (ν τ : Type) where
  /-- A token that begins one of the alternatives, and the rest of the first such alternative. -/
  | choice (alternatives : List ((τ → Bool) × List (Symbol ν τ)))
  /-- A token and what follows it, or nothing. -/
  | optional (first : τ → Bool) (body : List (Symbol ν τ))
  /-- A token and what follows it, any number of times. -/
  | many (first : τ → Bool) (body : List (Symbol ν τ))
  | rule (name : ν)

/-- A grammar: each rule is a choice. -/
structure Grammar (ν τ : Type) where
  start : ν
  rules : ν → List ((τ → Bool) × List (Grammar.Symbol ν τ))
  /-- The rules that close a bracket. -/
  closes : ν → Bool

namespace Grammar
variable {ν τ : Type}

/-- The rest of the first alternative that begins with the token. -/
def choose : List ((τ → Bool) × List (Symbol ν τ)) → τ → Option (List (Symbol ν τ))
  | [], _ => none
  | (first, body) :: alternatives, t => bif first t then some body else choose alternatives t

variable (G : Grammar ν τ)

/-- What stands on the stack after the token; what may be missing is passed over. -/
def after : List (Symbol ν τ) → τ → Option (List (Symbol ν τ))
  | [], _ => none
  | .choice alternatives :: stack, t => (choose alternatives t).map (· ++ stack)
  | .optional first body :: stack, t => bif first t then some (body ++ stack) else after stack t
  | .many first body :: stack, t => bif first t then some (body ++ .many first body :: stack) else after stack t
  | .rule name :: stack, t => (choose (G.rules name) t).map (· ++ stack)

/-- How many brackets are open: so many are still to be closed. -/
def depth : List (Symbol ν τ) → ℕ
  | [] => 0
  | .rule name :: stack => (G.closes name).toNat + depth stack
  | _ :: stack => depth stack

/-- The stack after the first `i` tokens, unless the grammar refuses one of them. -/
def standing (ts : List τ) (i : ℕ) : Option (List (Symbol ν τ)) := (ts.take i).foldlM G.after [.rule G.start]

section Stacks
variable {G} {t : τ} {stack : List (Symbol ν τ)} {ts : List τ} {i j : ℕ}

theorem depth_append (s s' : List (Symbol ν τ)) : G.depth (s ++ s') = G.depth s + G.depth s' := by
  induction s with
  | nil => exact (Nat.zero_add _).symm
  | cons symbol s ih =>
    cases symbol with
    | rule name => exact (congrArg _ ih).trans (Nat.add_assoc _ _ _).symm
    | _ => exact ih

theorem standing_zero (ts : List τ) : G.standing ts 0 = some [.rule G.start] := rfl

theorem standing_succ (h : ts[i]? = some t) :
    G.standing ts (i + 1) = (G.standing ts i).bind fun stack => G.after stack t := by
  rw [standing, standing, List.take_add_one, h, List.foldlM_append]
  refine congrArg _ (funext fun stack => ?_)
  simp

theorem standing_of_length_le (h : ts.length ≤ i) : G.standing ts i = G.standing ts ts.length := by
  rw [standing, standing, List.take_of_length_le h, List.take_length]

/-- A token that is refused stays refused. -/
theorem standing_eq_none_of_le (h : G.standing ts i = none) (hle : i ≤ j) : G.standing ts j = none := by
  induction j, hle using Nat.le_induction with
  | base => exact h
  | succ j _ ih =>
    rcases Nat.lt_or_ge j ts.length with hlt | hge
    · rw [standing_succ (List.getElem?_eq_getElem hlt), ih]
      rfl
    · rwa [standing_of_length_le (Nat.le_succ_of_le hge), ← standing_of_length_le hge]

end Stacks

/-! ## Places -/

/-- The `i`-th place: the grammar goes on as from the stack.  If it has refused a token, nothing may stand. -/
structure Stands (ts : List τ) (i : ℕ) (stack : List (Symbol ν τ)) : Prop where
  next : ∀ t, ts[i]? = some t → ((G.standing ts i).bind fun stack => G.after stack t) = G.after stack t
  depth_eq : ∀ stack', G.standing ts i = some stack' → G.depth stack' = G.depth stack
  refuses : G.standing ts i = none → ∀ t, G.after stack t = none

/-- After `i` tokens, `n` brackets or more are open. -/
def Deep (n : ℕ) (ts : List τ) (i : ℕ) : Prop := ∃ stack, G.standing ts i = some stack ∧ n ≤ G.depth stack

section Places
variable {G} {t : τ} {stack stack' : List (Symbol ν τ)} {ts : List τ} {i n : ℕ}

theorem stands_of_standing {s : List (Symbol ν τ)} (h : G.standing ts i = some s)
    (hafter : ∀ t, ts[i]? = some t → G.after s t = G.after stack t) (hdepth : G.depth s = G.depth stack) :
    G.Stands ts i stack := by
  refine ⟨fun t ht => ?_, fun s' h' => ?_, fun h' => ?_⟩
  · rw [h]
    exact hafter t ht
  · rw [h] at h'
    cases h'
    exact hdepth
  · rw [h] at h'
    cases h'

/-- After a refused token nothing may stand. -/
theorem stands_of_none (h : G.standing ts i = none) (stack : List (Symbol ν τ)) :
    G.Stands ts i (.choice [] :: stack) := by
  refine ⟨fun t _ => ?_, fun s h' => ?_, fun _ t => rfl⟩
  · rw [h]
    rfl
  · rw [h] at h'
    cases h'

theorem not_deep_of_none (h : G.standing ts i = none) : ¬G.Deep n ts i := by
  rintro ⟨s, hs, -⟩
  rw [h] at hs
  cases hs

namespace Stands
variable (h : G.Stands ts i stack)
include h

/-- Where something may stand, no token was refused. -/
theorem exists_standing (hafter : G.after stack t = some stack') : ∃ s, G.standing ts i = some s := by
  rcases hs : G.standing ts i with _ | s
  · have hnone := h.refuses hs t
    rw [hafter] at hnone
    cases hnone
  · exact ⟨s, rfl⟩

theorem step (ht : ts[i]? = some t) : G.standing ts (i + 1) = G.after stack t :=
  (standing_succ ht).trans (h.next t ht)

theorem succ (ht : ts[i]? = some t) (hafter : G.after stack t = some stack') : G.Stands ts (i + 1) stack' :=
  stands_of_standing ((h.step ht).trans hafter) (fun _ _ => rfl) rfl

/-- Only the next token matters, where something may stand. -/
theorem congr {u : τ} {s : List (Symbol ν τ)} (hother : G.after stack u = some s) (ht : ts[i]? = some t)
    (hafter : G.after stack t = G.after stack' t) (hdepth : G.depth stack = G.depth stack') :
    G.Stands ts i stack' := by
  obtain ⟨s, hs⟩ := h.exists_standing hother
  refine stands_of_standing hs (fun t' ht' => ?_) ((h.depth_eq s hs).trans hdepth)
  obtain rfl : t = t' := Option.some.inj (ht.symm.trans ht')
  have hnext := h.next t ht
  rw [hs] at hnext
  exact hnext.trans hafter

/-- Where the next token is refused, nothing may stand. -/
theorem refuse (ht : ts[i]? = some t) (hafter : G.after stack t = none) (hdepth : G.depth stack = G.depth stack') :
    G.Stands ts i (.choice [] :: stack') := by
  refine ⟨fun t' ht' => ?_, fun s hs => (h.depth_eq s hs).trans hdepth, fun _ t => rfl⟩
  obtain rfl : t = t' := Option.some.inj (ht.symm.trans ht')
  exact (h.next t ht).trans hafter

theorem deep (hafter : G.after stack t = some stack') (hdepth : n ≤ G.depth stack) : G.Deep n ts i := by
  obtain ⟨s, hs⟩ := h.exists_standing hafter
  exact ⟨s, hs, hdepth.trans_eq (h.depth_eq s hs).symm⟩

/-- What is deep after a token that opens nothing was deep before it. -/
theorem not_deep_succ (ht : ts[i]? = some t) (hafter : G.after stack t = some stack')
    (hdepth : G.depth stack' ≤ G.depth stack) (hnot : ¬G.Deep n ts i) : ¬G.Deep n ts (i + 1) := by
  rintro ⟨s, hs, hn⟩
  rw [h.step ht, hafter] at hs
  cases hs
  exact hnot (h.deep hafter (hn.trans hdepth))

end Stands

end Places

/-! ## One token or another -/

/-- At `t` the stack goes on as `found`, which is not deeper, and at every other token as `missing` does. -/
structure Splits (stack : List (Symbol ν τ)) (t : τ) (found missing : List (Symbol ν τ)) : Prop where
  after_self : G.after stack t = some found
  after_of_ne : ∀ t', t' ≠ t → G.after stack t' = G.after missing t'
  depth_le : G.depth found ≤ G.depth stack
  depth_eq : G.depth stack = G.depth missing

/-- The token `t`. -/
def just [DecidableEq τ] (t : τ) : τ → Bool := fun t' => decide (t' = t)

section Splits
variable {G} {t t' : τ} {stack found missing : List (Symbol ν τ)} {ts : List τ} {i : ℕ}

theorem Splits.stands_missing (hs : G.Splits stack t found missing) (h : G.Stands ts i stack)
    (ht : ts[i]? = some t') (hne : t' ≠ t) : G.Stands ts i missing :=
  h.congr hs.after_self ht (hs.after_of_ne t' hne) hs.depth_eq

variable [DecidableEq τ] {body : List (Symbol ν τ)}

theorem just_self (t : τ) : just t t = true := decide_eq_true rfl

theorem just_of_ne (h : t' ≠ t) : just t t' = false := decide_eq_false h

theorem splits_choice (hbody : G.depth body = 0) (alternatives : List ((τ → Bool) × List (Symbol ν τ)))
    (stack : List (Symbol ν τ)) : G.Splits (.choice ((just t, body) :: alternatives) :: stack) t (body ++ stack)
      (.choice alternatives :: stack) := by
  refine ⟨?_, fun t' h => ?_, ?_, rfl⟩
  · rw [after, choose, just_self]
    rfl
  · rw [after, choose, just_of_ne h]
    rfl
  · rw [depth_append, hbody, Nat.zero_add]
    rfl

theorem splits_optional (hbody : G.depth body = 0) (stack : List (Symbol ν τ)) :
    G.Splits (.optional (just t) body :: stack) t (body ++ stack) stack := by
  refine ⟨?_, fun t' h => ?_, ?_, rfl⟩
  · rw [after, just_self]
    rfl
  · rw [after, just_of_ne h]
    rfl
  · rw [depth_append, hbody, Nat.zero_add]
    rfl

theorem splits_many (hbody : G.depth body = 0) (stack : List (Symbol ν τ)) :
    G.Splits (.many (just t) body :: stack) t (body ++ .many (just t) body :: stack) stack := by
  refine ⟨?_, fun t' h => ?_, ?_, rfl⟩
  · rw [after, just_self]
    rfl
  · rw [after, just_of_ne h]
    rfl
  · rw [depth_append, hbody, Nat.zero_add]

end Splits

end Grammar

end Lib
