/-
  Outcomes of fallible code: a value, an I/O error, or a panic.

  A panic stands for everything that stops the program instead of returning to
  the caller: an index out of range, a failed `expect`, an `unreachable!`
  that is reached, a capacity that cannot be reserved, and recursion that exhausts
  the stack.
-/
import NutDb.Lib.Bytes

namespace Lib

/-- Kinds of I/O errors. -/
inductive ErrorKind where
  | notFound | notConnected | invalidInput | invalidData | timedOut | wouldBlock | writeZero
  | unexpectedEof | other
  deriving DecidableEq, Repr

/-- An I/O error: its kind and its message. -/
structure IoError where
  kind : ErrorKind
  message : String
  deriving DecidableEq, Repr

/-- Ways in which code stops without returning. -/
inductive Panic where
  | index
  | expect (message : String)
  | unreachable (message : String)
  | capacity
  | stackOverflow
  deriving DecidableEq, Repr

/-- What can come back instead of a value. -/
inductive Fault where
  | io (error : IoError)
  | panic (p : Panic)
  deriving DecidableEq, Repr

/-- The result of fallible code. -/
abbrev Res (α : Type) := Except Fault α

namespace Res
variable {α β : Type}

/-- Fail with an I/O error. -/
def fail (kind : ErrorKind) (message : String) : Res α := .error (.io ⟨kind, message⟩)

/-- `ok_or_else`: a missing value is an I/O error. -/
def ofOption (kind : ErrorKind) (message : String) : Option α → Res α
  | some a => .ok a
  | none => fail kind message

/-- Indexing `l[i]`. -/
def get (l : List α) (i : ℕ) : Res α :=
  match l[i]? with
  | some a => .ok a
  | none => .error (.panic .index)

/-- Assignment `l[i] = a`. -/
def setAt (l : List α) (i : ℕ) (a : α) : Res (List α) :=
  if i < l.length then .ok (l.set i a) else .error (.panic .index)

/-- `Vec::insert`. -/
def insertAt (l : List α) (i : ℕ) (a : α) : Res (List α) :=
  if i ≤ l.length then .ok (l.take i ++ a :: l.drop i) else .error (.panic .index)

/-- `Vec::split_off`: what stays and what is split off. -/
def splitOff (l : List α) (i : ℕ) : Res (List α × List α) :=
  if i ≤ l.length then .ok (l.take i, l.drop i) else .error (.panic .index)

@[simp] theorem ok_bind (a : α) (f : α → Res β) : (Except.ok a >>= f : Res β) = f a := rfl

@[simp] theorem pure_eq (a : α) : (pure a : Res α) = .ok a := rfl

@[simp] theorem error_bind (e : Fault) (f : α → Res β) :
    (Except.error e >>= f : Res β) = .error e := rfl

/-- What a successful sequence of two computations looks like. -/
theorem bind_eq_ok {x : Res α} {f : α → Res β} {b : β} :
    (x >>= f) = .ok b ↔ ∃ a, x = .ok a ∧ f a = .ok b := by
  cases x with
  | error e => simp
  | ok a => simp

theorem ofOption_eq_ok {k : ErrorKind} {m : String} {o : Option α} {a : α} :
    ofOption k m o = .ok a ↔ o = some a := by
  cases o <;> simp [ofOption, fail]

@[simp] theorem ofOption_some (k : ErrorKind) (m : String) (a : α) :
    ofOption k m (some a) = .ok a := rfl

theorem get_of_getElem? {l : List α} {i : ℕ} {a : α} (h : l[i]? = some a) : get l i = .ok a := by
  simp [get, h]

theorem get_eq_ok {l : List α} {i : ℕ} {a : α} : get l i = .ok a ↔ l[i]? = some a := by
  unfold get
  cases l[i]? <;> simp

theorem setAt_of_lt {l : List α} {i : ℕ} {a : α} (h : i < l.length) : setAt l i a = .ok (l.set i a) :=
  if_pos h

theorem get_append_cons (l₁ l₂ : List α) (a : α) : get (l₁ ++ a :: l₂) l₁.length = .ok a :=
  get_of_getElem? (by simp)

theorem setAt_append_cons (l₁ l₂ : List α) (a b : α) :
    setAt (l₁ ++ a :: l₂) l₁.length b = .ok (l₁ ++ b :: l₂) := by
  rw [setAt_of_lt (by simp), List.set_append_right _ _ le_rfl]
  simp

theorem insertAt_length (l₁ l₂ : List α) (a : α) :
    insertAt (l₁ ++ l₂) l₁.length a = .ok (l₁ ++ a :: l₂) := by
  simp [insertAt]

theorem length_of_mapM {f : α → Res β} : ∀ {l : List α} {l' : List β}, l.mapM f = .ok l' →
    l'.length = l.length
  | [], l', h => by cases h; rfl
  | a :: l, l', h => by
    rw [List.mapM_cons, bind_eq_ok] at h
    obtain ⟨b, -, h⟩ := h
    obtain ⟨bs, hbs, h⟩ := bind_eq_ok.1 h
    cases h
    rw [List.length_cons, List.length_cons, length_of_mapM hbs]

/-- A turn of a loop that collects results. -/
theorem getElem?_of_mapM {f : α → Res β} : ∀ {l : List α} {l' : List β}, l.mapM f = .ok l' →
    ∀ {i : ℕ} {a : α} {b : β}, l[i]? = some a → l'[i]? = some b → f a = .ok b
  | [], _, _, _, _, _, hi, _ => by simp at hi
  | a :: l, l', h, i, _, _, hi, hi' => by
    rw [List.mapM_cons, bind_eq_ok] at h
    obtain ⟨b, hb, h⟩ := h
    obtain ⟨bs, hbs, h⟩ := bind_eq_ok.1 h
    cases h
    cases i with
    | zero =>
      obtain rfl := Option.some.inj hi
      obtain rfl := Option.some.inj hi'
      exact hb
    | succ i => exact getElem?_of_mapM hbs hi hi'

/-- A loop all of whose turns succeed. -/
theorem mapM_of_ok {f : α → Res β} {l : List α} (h : ∀ a ∈ l, ∃ b, f a = .ok b) : ∃ bs, l.mapM f = .ok bs := by
  induction l with
  | nil => exact ⟨[], rfl⟩
  | cons a l ih =>
    obtain ⟨b, hb⟩ := h a (by simp)
    obtain ⟨bs, hbs⟩ := ih fun a' ha' => h a' (by simp [ha'])
    exact ⟨b :: bs, by rw [List.mapM_cons, hb, ok_bind, hbs]; rfl⟩

/-- A loop with an element on which every turn fails. -/
theorem foldlM_error {σ : Type} {f : σ → α → Res σ} {a : α} (h : ∀ s, ∃ e, f s a = .error e)
    (l rest : List α) (s : σ) : ∃ e, (l ++ a :: rest).foldlM f s = .error e := by
  rw [List.foldlM_append]
  rcases l.foldlM f s with e | s'
  · exact ⟨e, rfl⟩
  · obtain ⟨e, he⟩ := h s'
    refine ⟨e, ?_⟩
    rw [ok_bind, List.foldlM_cons, he, error_bind]

/-- What every turn of a loop keeps holds after the loop. -/
theorem foldlM_inv {σ : Type} {I : σ → Prop} {f : σ → α → Res σ}
    (hf : ∀ {s a s'}, I s → f s a = .ok s' → I s') {l : List α} {s s' : σ} (hs : I s)
    (h : l.foldlM f s = .ok s') : I s' := by
  induction l generalizing s with
  | nil =>
    cases h
    exact hs
  | cons a l ih =>
    rw [List.foldlM_cons, bind_eq_ok] at h
    obtain ⟨s₁, h1, h2⟩ := h
    exact ih (hf hs h1) h2

/-! ## Returning -/

/-- The computation returns to its caller. -/
def Returns (r : Res α) : Prop := ∀ p, r ≠ .error (.panic p)

theorem returns_ok (a : α) : Returns (.ok a) := fun _ h => by cases h

theorem returns_fail (kind : ErrorKind) (message : String) : Returns (fail kind message : Res α) :=
  fun _ h => by cases h

theorem returns_ofOption (kind : ErrorKind) (message : String) (o : Option α) :
    Returns (ofOption kind message o) := by
  cases o with
  | none => exact returns_fail kind message
  | some a => exact returns_ok a

theorem Returns.cases {r : Res α} (h : Returns r) : (∃ a, r = .ok a) ∨ ∃ e, r = .error (.io e) := by
  cases r with
  | ok a => exact Or.inl ⟨a, rfl⟩
  | error e =>
    cases e with
    | io e => exact Or.inr ⟨e, rfl⟩
    | panic p => exact absurd rfl (h p)

theorem Returns.bind {x : Res α} {f : α → Res β} (hx : Returns x) (hf : ∀ a, Returns (f a)) :
    Returns (x >>= f) := by
  rcases hx.cases with ⟨a, rfl⟩ | ⟨e, rfl⟩
  · exact hf a
  · exact returns_fail e.kind e.message

theorem Returns.mapM {f : α → Res β} {l : List α} (h : ∀ a ∈ l, Returns (f a)) : Returns (l.mapM f) := by
  induction l with
  | nil => exact returns_ok []
  | cons a l ih =>
    rw [List.mapM_cons]
    refine (h a List.mem_cons_self).bind fun b => ?_
    exact (ih fun a' ha' => h a' (List.mem_cons_of_mem _ ha')).bind fun bs => returns_ok (b :: bs)

theorem Returns.foldlM {f : β → α → Res β} {l : List α} (h : ∀ b, ∀ a ∈ l, Returns (f b a)) (b : β) :
    Returns (l.foldlM f b) := by
  induction l generalizing b with
  | nil => exact returns_ok b
  | cons a l ih =>
    rw [List.foldlM_cons]
    exact (h b a List.mem_cons_self).bind fun b' => ih (fun b a' ha' => h b a' (List.mem_cons_of_mem _ ha')) b'

/-! ## Kinds of faults -/

/-- All faults of the computation are of a kind. -/
def Faults (P : Fault → Prop) (r : Res α) : Prop := ∀ fault, r = .error fault → P fault

namespace Faults
variable {P : Fault → Prop}

theorem ok (a : α) : Faults P (.ok a) := fun _ h => nomatch h

theorem error {fault : Fault} (h : P fault) : Faults P (.error fault : Res α) := by
  intro fault' heq
  cases heq
  exact h

theorem bind {x : Res α} {f : α → Res β} (hx : Faults P x) (hf : ∀ a, Faults P (f a)) : Faults P (x >>= f) := by
  cases x with
  | error fault => exact error (hx fault rfl)
  | ok a => exact hf a

theorem foldlM {f : β → α → Res β} {l : List α} (h : ∀ b a, Faults P (f b a)) (b : β) :
    Faults P (l.foldlM f b) := by
  induction l generalizing b with
  | nil => exact ok b
  | cons a l ih =>
    rw [List.foldlM_cons]
    exact (h b a).bind ih

theorem get (h : P (.panic .index)) (l : List α) (i : ℕ) : Faults P (Res.get l i) := by
  unfold Res.get
  split
  · exact ok _
  · exact error h

end Faults

end Res

end Lib
