/-
  Serial executions of transactions on a map.

  A transaction is the list of its operations, where a read comes with the value
  that it returned.  `Serial m ops m'` says that a map which is `m` before the
  operations returns these values when they are executed one after the other,
  and is `m'` behind them.

  A transaction that reads a snapshot and keeps its writes to itself
  (`Buffered`) is such an execution on every map that agrees with the snapshot
  on the keys that it writes, but for its reads of other keys
  (`Buffered.commit`).
-/
import Mathlib.Data.List.Basic
import Mathlib.Data.List.Induction
import Mathlib.Logic.Function.Basic

namespace Lib

variable {κ ν : Type} [DecidableEq κ]

/-- An operation on a map: a read with what it returned, or a write. -/
inductive MapOp (κ ν : Type) where
  | read (key : κ) (value : ν)
  | write (key : κ) (value : ν)
  deriving DecidableEq, Repr

/-- Executions on a map, one operation after the other. -/
inductive Serial : (κ → ν) → List (MapOp κ ν) → (κ → ν) → Prop
  | nil (m : κ → ν) : Serial m [] m
  | read {m m' : κ → ν} {ops : List (MapOp κ ν)} (key : κ) : Serial m ops m' →
      Serial m (ops ++ [.read key (m' key)]) m'
  | write {m m' : κ → ν} {ops : List (MapOp κ ν)} (key : κ) (value : ν) : Serial m ops m' →
      Serial m (ops ++ [.write key value]) (Function.update m' key value)

theorem Serial.append {m m' m'' : κ → ν} {ops ops' : List (MapOp κ ν)} (h : Serial m ops m')
    (h' : Serial m' ops' m'') : Serial m (ops ++ ops') m'' := by
  induction h' with
  | nil =>
    rw [List.append_nil]
    exact h
  | read key _ ih =>
    rw [← List.append_assoc]
    exact ih.read key
  | write key value _ ih =>
    rw [← List.append_assoc]
    exact ih.write key value

/-- The last operation of an execution. -/
theorem Serial.concat {m m' : κ → ν} {ops : List (MapOp κ ν)} {op : MapOp κ ν} (h : Serial m (ops ++ [op]) m') :
    (∃ key, op = .read key (m' key) ∧ Serial m ops m') ∨
      ∃ key value m₁, op = .write key value ∧ Serial m ops m₁ ∧ m' = Function.update m₁ key value := by
  generalize hall : ops ++ [op] = all at h
  cases h with
  | nil => exact absurd hall (List.append_ne_nil_of_right_ne_nil _ (List.cons_ne_nil _ _))
  | @read m' ops' key hops =>
    obtain ⟨rfl, hop⟩ := List.append_inj' hall rfl
    exact Or.inl ⟨key, List.singleton_inj.1 hop, hops⟩
  | @write m₁ ops' key value hops =>
    obtain ⟨rfl, hop⟩ := List.append_inj' hall rfl
    exact Or.inr ⟨key, value, m₁, List.singleton_inj.1 hop, hops, rfl⟩

theorem Serial.of_nil {m m' : κ → ν} (h : Serial m [] m') : m' = m := by
  generalize hops : [] = ops at h
  cases h with
  | nil => rfl
  | read key _ => exact absurd hops.symm (List.append_ne_nil_of_right_ne_nil _ (List.cons_ne_nil _ _))
  | write key value _ => exact absurd hops.symm (List.append_ne_nil_of_right_ne_nil _ (List.cons_ne_nil _ _))

theorem Serial.of_read {m m' : κ → ν} {key : κ} {value : ν} (h : Serial m [.read key value] m') :
    m' = m ∧ value = m key := by
  rw [← List.nil_append [MapOp.read key value]] at h
  rcases h.concat with ⟨k, heq, hnil⟩ | ⟨k, v, m₁, heq, -, -⟩
  · cases heq
    rw [hnil.of_nil]
    exact ⟨rfl, rfl⟩
  · cases heq

theorem Serial.of_write {m m' : κ → ν} {key : κ} {value : ν} (h : Serial m [.write key value] m') :
    m' = Function.update m key value := by
  rw [← List.nil_append [MapOp.write key value]] at h
  rcases h.concat with ⟨k, heq, -⟩ | ⟨k, v, m₁, heq, hnil, rfl⟩
  · cases heq
  · cases heq
    rw [hnil.of_nil]

theorem Serial.split {m m'' : κ → ν} {ops ops' : List (MapOp κ ν)} (h : Serial m (ops ++ ops') m'') :
    ∃ m', Serial m ops m' ∧ Serial m' ops' m'' := by
  induction ops' using List.reverseRecOn generalizing m'' with
  | nil =>
    rw [List.append_nil] at h
    exact ⟨m'', h, .nil _⟩
  | append_singleton ops' op ih =>
    rw [← List.append_assoc] at h
    rcases h.concat with ⟨key, rfl, hops⟩ | ⟨key, value, m₁, rfl, hops, rfl⟩
    · obtain ⟨m', h₁, h₂⟩ := ih hops
      exact ⟨m', h₁, h₂.read key⟩
    · obtain ⟨m', h₁, h₂⟩ := ih hops
      exact ⟨m', h₁, h₂.write key value⟩

/-- A key that is not written keeps its value. -/
theorem Serial.frame {m m' : κ → ν} {ops : List (MapOp κ ν)} {key : κ} (h : Serial m ops m')
    (hkey : ∀ value, .write key value ∉ ops) : m' key = m key := by
  induction h with
  | nil => rfl
  | read _ _ ih => exact ih fun value hmem => hkey value (List.mem_append_left _ hmem)
  | write k value _ ih =>
    have hne : key ≠ k := by
      rintro rfl
      exact hkey value (List.mem_append_right _ (List.mem_singleton_self _))
    rw [Function.update_of_ne hne]
    exact ih fun value hmem => hkey value (List.mem_append_left _ hmem)

/-- Whether the operation is a write of the key. -/
def MapOp.writes (key : κ) : MapOp κ ν → Bool
  | .read _ _ => false
  | .write k _ => decide (k = key)

/-- Whether an operation stays when only reads of some keys do. -/
def MapOp.stays (keys : κ → Bool) : MapOp κ ν → Bool
  | .read key _ => keys key
  | .write _ _ => true

/-- The operations but for the reads of keys that none of them writes. -/
def guarded (ops : List (MapOp κ ν)) : List (MapOp κ ν) :=
  ops.filter (MapOp.stays fun key => ops.any (MapOp.writes key))

/-- Every key that is read is written, too. -/
def Guarded (ops : List (MapOp κ ν)) : Prop :=
  ∀ key value, .read key value ∈ ops → ops.any (MapOp.writes key) = true

/-- Then all operations are left. -/
theorem Guarded.eq {ops : List (MapOp κ ν)} (h : Guarded ops) : guarded ops = ops := by
  refine List.filter_eq_self.2 fun op hop => ?_
  cases op with
  | read key value => exact h key value hop
  | write key value => rfl

/-- A transaction that reads `base`, but its own latest write of a key after that. -/
structure Buffered (base : κ → ν) (ops : List (MapOp κ ν)) (own : κ → Option ν) : Prop where
  serial : ∀ (keys : κ → Bool) (m : κ → ν), (∀ key, keys key = true → m key = base key) →
    Serial m (ops.filter (MapOp.stays keys)) fun key => (own key).getD (m key)
  writes : ∀ key, ops.any (MapOp.writes key) = (own key).isSome

section Buffered
variable {base : κ → ν} {ops : List (MapOp κ ν)} {own : κ → Option ν}

theorem buffered_nil (base : κ → ν) : Buffered base [] fun _ => none :=
  ⟨fun _ m _ => .nil m, fun _ => rfl⟩

/-- **A read** returns the own write, or what the snapshot has. -/
theorem Buffered.read (h : Buffered base ops own) (key : κ) :
    Buffered base (ops ++ [.read key ((own key).getD (base key))]) own := by
  refine ⟨fun keys m hm => ?_, fun k => ?_⟩
  · have hserial := h.serial keys m hm
    cases hkey : keys key with
    | true =>
      rw [List.filter_append, List.filter_cons_of_pos (by simpa [MapOp.stays] using hkey), List.filter_nil, ← hm key hkey]
      exact hserial.read key
    | false =>
      rw [List.filter_append, List.filter_cons_of_neg (by simp [MapOp.stays, hkey]), List.filter_nil, List.append_nil]
      exact hserial
  · rw [List.any_append, h.writes k]
    simp [MapOp.writes]

/-- **A write** is kept. -/
theorem Buffered.write (h : Buffered base ops own) (key : κ) (value : ν) :
    Buffered base (ops ++ [.write key value]) (Function.update own key (some value)) := by
  refine ⟨fun keys m hm => ?_, fun k => ?_⟩
  · have hmap : (fun k => (Function.update own key (some value) k).getD (m k)) =
        Function.update (fun k => (own k).getD (m k)) key value := by
      funext k
      by_cases hk : k = key
      · rw [hk, Function.update_self, Function.update_self, Option.getD_some]
      · rw [Function.update_of_ne hk, Function.update_of_ne hk]
    rw [hmap, List.filter_append, List.filter_cons_of_pos rfl, List.filter_nil]
    exact (h.serial keys m hm).write key value
  · rw [List.any_append, h.writes k]
    by_cases hk : k = key
    · simp [MapOp.writes, hk]
    · simp [MapOp.writes, hk, Ne.symm hk]

/-- **The commit**: on a map that agrees with the snapshot on the keys that are written, the
    transaction is an execution, but for the reads of other keys. -/
theorem Buffered.commit (h : Buffered base ops own) {m : κ → ν}
    (hm : ∀ key, (own key).isSome = true → m key = base key) :
    Serial m (guarded ops) fun key => (own key).getD (m key) :=
  h.serial _ m fun key hkey => hm key (h.writes key ▸ hkey)

end Buffered

end Lib
