/-
  Fallible code over a state.  A step that fails keeps what was done to the
  state before it failed, which is what callers of the code see.
-/
import NutDb.Lib.Outcome

namespace Lib

/-- Code over a state `σ` that returns a value of type `α`. -/
def Act (σ α : Type) := σ → Res α × σ

namespace Act
variable {σ α β : Type}

/-- The value and the state after running `x` from `s`. -/
def run (x : Act σ α) (s : σ) : Res α × σ := x s

instance : Monad (Act σ) where
  pure a := fun s => (.ok a, s)
  bind x f := fun s =>
    match x s with
    | (.ok a, s') => f a s'
    | (.error e, s') => (.error e, s')

/-- A result that does not depend on the state. -/
def lift (r : Res α) : Act σ α := fun s => (r, s)

/-- Fail with an I/O error. -/
def fail (kind : ErrorKind) (message : String) : Act σ α := lift (Res.fail kind message)

/-- Read from the state. -/
def gets (f : σ → α) : Act σ α := fun s => (.ok (f s), s)

/-- Change the state. -/
def modify (f : σ → σ) : Act σ Unit := fun s => (.ok (), f s)

@[simp] theorem run_pure (a : α) (s : σ) : (pure a : Act σ α).run s = (.ok a, s) := rfl

@[simp] theorem run_lift (r : Res α) (s : σ) : (lift r : Act σ α).run s = (r, s) := rfl

@[simp] theorem run_fail (k : ErrorKind) (m : String) (s : σ) :
    (fail k m : Act σ α).run s = (Res.fail k m, s) := rfl

@[simp] theorem run_gets (f : σ → α) (s : σ) : (gets f).run s = (.ok (f s), s) := rfl

@[simp] theorem run_modify (f : σ → σ) (s : σ) : (modify f).run s = (.ok (), f s) := rfl

theorem run_bind (x : Act σ α) (f : α → Act σ β) (s : σ) :
    (x >>= f).run s =
      match x.run s with
      | (.ok a, s') => (f a).run s'
      | (.error e, s') => (.error e, s') := rfl

theorem run_bind_ok {x : Act σ α} {f : α → Act σ β} {s s' : σ} {a : α}
    (h : x.run s = (.ok a, s')) : (x >>= f).run s = (f a).run s' := by
  rw [run_bind, h]

theorem run_bind_error {x : Act σ α} {f : α → Act σ β} {s s' : σ} {e : Fault}
    (h : x.run s = (.error e, s')) : (x >>= f).run s = (.error e, s') := by
  rw [run_bind, h]

/-- What a successful sequence of two steps looks like. -/
theorem run_bind_eq_ok {x : Act σ α} {f : α → Act σ β} {s s' : σ} {b : β} :
    (x >>= f).run s = (.ok b, s') ↔ ∃ a s₁, x.run s = (.ok a, s₁) ∧ (f a).run s₁ = (.ok b, s') := by
  rw [run_bind]
  rcases x.run s with ⟨_ | a, s₁⟩
  · simp
  · simp

/-- What a sequence of two steps looks like, whether it succeeds or fails. -/
theorem run_bind_cases {x : Act σ α} {f : α → Act σ β} {s s' : σ} {r : Res β}
    (h : (x >>= f).run s = (r, s')) :
    (∃ a s₁, x.run s = (.ok a, s₁) ∧ (f a).run s₁ = (r, s')) ∨
      ∃ e, x.run s = (.error e, s') ∧ r = .error e := by
  rw [run_bind] at h
  rcases hx : x.run s with ⟨e | a, s₁⟩
  · rw [hx] at h
    cases h
    exact Or.inr ⟨e, rfl, rfl⟩
  · rw [hx] at h
    exact Or.inl ⟨a, s₁, rfl, h⟩

/-- A run, from its result. -/
theorem run_eq_of_fst {x : Act σ α} {s : σ} {r : Res α} (h : (x.run s).1 = r) :
    x.run s = (r, (x.run s).2) :=
  Prod.ext h rfl

/-! ## Invariants -/

/-- `x` keeps the invariant `I`, whether it succeeds or fails. -/
def Preserves (I : σ → Prop) (x : Act σ α) : Prop := ∀ s, I s → I (x.run s).2

section Preserves
variable {I : σ → Prop}

theorem preserves_pure (a : α) : Preserves I (pure a) := fun _ h => h

theorem preserves_lift (r : Res α) : Preserves I (lift r) := fun _ h => h

theorem preserves_fail (k : ErrorKind) (m : String) : Preserves I (fail k m : Act σ α) :=
  preserves_lift _

theorem preserves_gets (f : σ → α) : Preserves I (gets f) := fun _ h => h

theorem preserves_modify {f : σ → σ} (hf : ∀ s, I s → I (f s)) : Preserves I (modify f) := hf

theorem preserves_bind {x : Act σ α} {f : α → Act σ β} (hx : Preserves I x)
    (hf : ∀ a, Preserves I (f a)) : Preserves I (x >>= f) := by
  intro s hs
  have h1 := hx s hs
  rw [run_bind]
  revert h1
  rcases x.run s with ⟨_ | a, s'⟩
  · exact fun h1 => h1
  · exact fun h1 => hf a s' h1

/-- The rule for a step that reads the state: what follows may use that it read this state. -/
theorem preserves_gets_bind {g : σ → α} {f : α → Act σ β}
    (hf : ∀ s, I s → I ((f (g s)).run s).2) : Preserves I (gets g >>= f) := hf

theorem preserves_ite {c : Prop} [Decidable c] {x y : Act σ α} (hx : Preserves I x)
    (hy : Preserves I y) : Preserves I (if c then x else y) := by
  split_ifs
  · exact hx
  · exact hy

end Preserves

/-! ## Results -/

/-- All values that `x` returns satisfy `Q`. -/
def Returns (x : Act σ α) (Q : α → Prop) : Prop := ∀ s a s', x.run s = (.ok a, s') → Q a

section Returns
variable {P : α → Prop} {Q : β → Prop}

theorem returns_pure {a : α} (h : P a) : Returns (pure a : Act σ α) P := by
  intro s b s' hrun
  cases hrun
  exact h

theorem returns_lift {r : Res α} (h : ∀ a, r = .ok a → P a) : Returns (lift r : Act σ α) P := by
  intro s a s' hrun
  exact h a (Prod.mk.inj hrun).1

theorem returns_bind {x : Act σ α} {f : α → Act σ β} (hx : Returns x P)
    (hf : ∀ a, P a → Returns (f a) Q) : Returns (x >>= f) Q := by
  intro s b s' hrun
  obtain ⟨a, s₁, h1, h2⟩ := run_bind_eq_ok.1 hrun
  exact hf a (hx s a s₁ h1) s₁ b s' h2

/-- The rule for a step whose value does not matter. -/
theorem returns_then {x : Act σ α} {f : α → Act σ β} (hf : ∀ a, Returns (f a) Q) :
    Returns (x >>= f) Q :=
  returns_bind (P := fun _ => True) (fun _ _ _ _ => trivial) fun a _ => hf a

theorem returns_ite {c : Prop} [Decidable c] {x y : Act σ α} (hx : Returns x P) (hy : Returns y P) :
    Returns (if c then x else y) P := by
  split_ifs
  · exact hx
  · exact hy

end Returns

/-- The rule for a step whose value is known. -/
theorem preserves_returned {I : σ → Prop} {Q : α → Prop} {x : Act σ α} {f : α → Act σ β}
    (hx : Preserves I x) (hq : Returns x Q) (hf : ∀ a, Q a → Preserves I (f a)) :
    Preserves I (x >>= f) := by
  intro s hs
  have h1 := hx s hs
  rw [run_bind]
  rcases hrun : x.run s with ⟨_ | a, s'⟩
  · rw [hrun] at h1
    exact h1
  · rw [hrun] at h1
    exact hf a (hq s a s' hrun) s' h1

/-- The rule for a value that is computed. -/
theorem preserves_computed {I : σ → Prop} {r : Res α} {f : α → Act σ β}
    (hf : ∀ a, r = .ok a → Preserves I (f a)) : Preserves I (lift r >>= f) :=
  preserves_returned (preserves_lift r) (returns_lift fun _ h => h) hf

/-! ## Simulation -/

/-- `x` and `y` do the same: from states related by `R` they return the same result, and related
    states again. -/
def Simulates {τ : Type} (R : σ → τ → Prop) (x : Act σ α) (y : Act τ α) : Prop :=
  ∀ s t, R s t → (x.run s).1 = (y.run t).1 ∧ R (x.run s).2 (y.run t).2

section Simulates
variable {τ : Type} {R : σ → τ → Prop}

theorem simulates_pure (a : α) : Simulates R (pure a) (pure a) := fun _ _ h => ⟨rfl, h⟩

theorem simulates_lift (r : Res α) : Simulates R (lift r) (lift r) := fun _ _ h => ⟨rfl, h⟩

theorem simulates_bind {x : Act σ α} {y : Act τ α} {f : α → Act σ β} {g : α → Act τ β}
    (hx : Simulates R x y) (hf : ∀ a, Simulates R (f a) (g a)) :
    Simulates R (x >>= f) (y >>= g) := by
  intro s t h
  obtain ⟨h1, h2⟩ := hx s t h
  rw [run_bind, run_bind]
  revert h1 h2
  rcases x.run s with ⟨r, s'⟩
  rcases y.run t with ⟨r', t'⟩
  rintro rfl h2
  cases r with
  | error e => exact ⟨rfl, h2⟩
  | ok a => exact hf a s' t' h2

theorem simulates_ite {c : Prop} [Decidable c] {x x' : Act σ α} {y y' : Act τ α}
    (hx : Simulates R x y) (hx' : Simulates R x' y') :
    Simulates R (if c then x else x') (if c then y else y') := by
  split_ifs
  · exact hx
  · exact hx'

end Simulates

/-! ## Sequences of calls -/

/-- Calls one after the other, each from the state that the one before has left, whether it
    succeeded or failed. -/
def calls : List (Act σ α) → σ → List (Res α) × σ
  | [], s => ([], s)
  | x :: xs, s => ((x.run s).1 :: (calls xs (x.run s).2).1, (calls xs (x.run s).2).2)

/-- What every call keeps holds after the calls. -/
theorem calls_preserves {I : σ → Prop} {xs : List (Act σ α)} (h : ∀ x ∈ xs, Preserves I x) :
    ∀ s, I s → I (calls xs s).2 := by
  induction xs with
  | nil => exact fun s hs => hs
  | cons x xs ih =>
    intro s hs
    exact ih (fun y hy => h y (List.mem_cons_of_mem _ hy)) _ (h x List.mem_cons_self s hs)

end Act

end Lib
