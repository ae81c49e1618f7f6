/-
  The criterion of the history checker (`src/linearizability.rs`).

  `searchShared` is `search` on the one array that all its levels share: an entry
  is marked before the rest is searched and unmarked afterwards.  Every path
  restores the array, so the marks are those of the entries placed so far
  (`searchShared_eq`).

  `Criterion` is what the checker is to decide, with the order of the entries and
  the choice of the timed-out writes spelled out; `checker_decides` says that it
  does.
-/
import NutDb.Linearizability

namespace NutDb.Linearizability

/-! ## The shared array -/

/-- The cases of `search` for the entry that comes next. -/
def placeShared (search : Option String → List Bool → Bool × List Bool) (state : Option String)
    (entry : HistoryEntry) (used : List Bool) : Bool × List Bool :=
  match entry.operation, entry.outcome with
  | _, .fail => search state used
  | .write value, .ok _ => search (some value) used
  | .read, .ok observed => if observed = state then search state used else (false, used)
  | .write value, .info =>
    let (succeeds, used) := search state used
    if succeeds then (true, used) else search (some value) used
  | .read, .info => search state used

/-- The loop of `search` over the entries and their indices. -/
def tryEach (history : List HistoryEntry) (search : Option String → List Bool → Bool × List Bool)
    (state : Option String) : List (HistoryEntry × ℕ) → List Bool → Bool × List Bool
  | [], used => (false, used)
  | (entry, index) :: rest, used =>
    if used.getD index true || hasUnorderedPredecessor history used index entry then
      tryEach history search state rest used
    else
      let (succeeds, used) := placeShared search state entry (used.set index true)
      let used := used.set index false
      if succeeds then (true, used) else tryEach history search state rest used

/-- `search` on the shared array: whether it succeeds, and the array afterwards. -/
def searchShared (history : List HistoryEntry) : ℕ → Option String → List Bool → Bool × List Bool
  | 0, _, used => (used.all id, used)
  | n + 1, state, used =>
    if used.all id then (true, used)
    else tryEach history (searchShared history n) state history.zipIdx used

/-- `is_linearizable`, with the array. -/
def isLinearizableShared (history : List HistoryEntry) : Bool :=
  (searchShared history history.length none (List.replicate history.length false)).1

section Shared
variable {history : List HistoryEntry} {state : Option String}

/-- Every case restores the array if the search for the rest does. -/
theorem placeShared_eq {f : Option String → List Bool → Bool × List Bool} {g : Option String → Bool}
    {used : List Bool} (h : ∀ state, f state used = (g state, used)) (entry : HistoryEntry) :
    placeShared f state entry used = (place g state entry, used) := by
  unfold placeShared place
  rcases entry.operation with value | _
  · rcases entry.outcome with observed | _ | _
    · exact h _
    · exact h _
    · simp only [h]
      cases g state <;> rfl
  · rcases entry.outcome with observed | _ | _
    · dsimp only
      split_ifs
      · exact h _
      · rfl
    · exact h _
    · exact h _

/-- An entry that is marked and unmarked. -/
theorem set_set_restore {used : List Bool} {index : ℕ} (h : used.getD index true = false) :
    (used.set index true).set index false = used := by
  obtain ⟨hlt, hget⟩ := List.getElem?_eq_some_iff.1 (getD_eq_false.1 h)
  rw [List.set_set, ← hget, List.set_getElem_self]

/-- Every turn of the loop restores the array. -/
theorem tryEach_eq {f : Option String → List Bool → Bool × List Bool} {g : ℕ → Option String → Bool}
    {used : List Bool} (h : ∀ index state, f state (used.set index true) = (g index state, used.set index true))
    (entries : List (HistoryEntry × ℕ)) :
    tryEach history f state entries used = (entries.any fun (entry, index) =>
      if used.getD index true || hasUnorderedPredecessor history used index entry then false
      else place (g index) state entry, used) := by
  induction entries with
  | nil => rfl
  | cons head rest ih =>
    obtain ⟨entry, index⟩ := head
    rw [tryEach, List.any_cons]
    by_cases hskip : (used.getD index true || hasUnorderedPredecessor history used index entry) = true
    · rw [if_pos hskip, ih]
      simp only [hskip, if_true, Bool.false_or]
    · have hfree : used.getD index true = false := by
        rw [Bool.or_eq_true, not_or, Bool.not_eq_true] at hskip
        exact hskip.1
      rw [if_neg hskip, placeShared_eq (h index)]
      simp only [hskip, set_set_restore hfree, ih]
      cases place (g index) state entry <;> rfl

/-- **The array is restored** on every path, and the search on it is the search. -/
theorem searchShared_eq (n : ℕ) (state : Option String) (used : List Bool) :
    searchShared history n state used = (search history n used state, used) := by
  induction n generalizing state used with
  | zero => rfl
  | succ n ih =>
    rw [searchShared, search]
    split_ifs with hall
    · rfl
    · exact tryEach_eq (fun index state => ih state _) _

theorem isLinearizableShared_eq (history : List HistoryEntry) :
    isLinearizableShared history = isLinearizable history := by
  rw [isLinearizableShared, searchShared_eq, isLinearizable]

end Shared

/-! ## The criterion -/

/-- What an entry does to the register; a timed-out write takes effect if it is chosen. -/
def effect (takes : ℕ → Bool) (index : ℕ) (entry : HistoryEntry) (state : Option String) : Option String :=
  match entry.operation, entry.outcome with
  | .write value, .ok _ => some value
  | .write value, .info => if takes index then some value else state
  | _, _ => state

/-- The register after the entries with the given indices. -/
def register (history : List HistoryEntry) (takes : ℕ → Bool) (order : List ℕ) : Option String :=
  order.foldl (fun state index =>
    match history[index]? with
    | some entry => effect takes index entry state
    | none => state) none

/-- The criterion: an order of all entries, none before one that has completed before it was invoked,
    in which every completed read observes the register. -/
structure Criterion (history : List HistoryEntry) (order : List ℕ) (takes : ℕ → Bool) : Prop where
  total : order.Perm (List.range history.length)
  realTime : order.Pairwise fun i j => ∀ a b, history[i]? = some a → history[j]? = some b →
    ¬ b.complete < a.invoke
  observes : ∀ before i after entry observed, order = before ++ i :: after → history[i]? = some entry →
    entry.operation = .read → entry.outcome = .ok observed → observed = register history takes before

section Criterion
variable {history : List HistoryEntry} {takes : ℕ → Bool} {state : Option String} {order : List ℕ}

/-- The register from a given state on, and that completed reads observe it. -/
def Observes (history : List HistoryEntry) (takes : ℕ → Bool) : Option String → List ℕ → Prop
  | _, [] => True
  | state, i :: rest => ∀ entry, history[i]? = some entry →
      (∀ observed, entry.operation = .read → entry.outcome = .ok observed → observed = state) ∧
      Observes history takes (effect takes i entry state) rest

/-- The effect of an entry whose read observes the register is one that the search tries. -/
theorem effect_mem_after {entry : HistoryEntry} {i : ℕ}
    (h : ∀ observed, entry.operation = .read → entry.outcome = .ok observed → observed = state) :
    effect takes i entry state ∈ after state entry := by
  unfold effect after
  rcases hop : entry.operation with value | _
  · rcases hout : entry.outcome with observed | _ | _
    · simp
    · simp
    · cases takes i <;> simp
  · rcases hout : entry.outcome with observed | _ | _
    · simp [h observed hop hout]
    · simp
    · simp

/-- What the search tries is the effect of the entry, for some choice. -/
theorem exists_effect {entry : HistoryEntry} {state' : Option String} (h : state' ∈ after state entry) (i : ℕ) :
    (∃ takes₀ : Bool, ∀ takes : ℕ → Bool, takes i = takes₀ → effect takes i entry state = state') ∧
      ∀ observed, entry.operation = .read → entry.outcome = .ok observed → observed = state := by
  unfold effect after at *
  rcases hop : entry.operation with value | _
  · refine ⟨?_, fun _ h => (nomatch h)⟩
    rcases hout : entry.outcome with observed | _ | _
    · simp only [hop, hout, List.mem_singleton] at h
      exact ⟨true, fun _ _ => h.symm⟩
    · simp only [hop, hout, List.mem_singleton] at h
      exact ⟨true, fun _ _ => h.symm⟩
    · simp only [hop, hout, List.mem_cons, List.not_mem_nil, or_false] at h
      rcases h with rfl | rfl
      · exact ⟨false, fun takes ht => by simp [ht]⟩
      · exact ⟨true, fun takes ht => by simp [ht]⟩
  · rcases hout : entry.outcome with observed | _ | _
    · simp only [hop, hout] at h
      split_ifs at h with hobs
      · rw [List.mem_singleton] at h
        refine ⟨⟨true, fun _ _ => h.symm⟩, fun observed' _ h' => ?_⟩
        cases h'
        exact hobs
      · exact absurd h List.not_mem_nil
    · simp only [hop, hout, List.mem_singleton] at h
      exact ⟨⟨true, fun _ _ => h.symm⟩, fun _ _ h' => (nomatch h')⟩
    · simp only [hop, hout, List.mem_singleton] at h
      exact ⟨⟨true, fun _ _ => h.symm⟩, fun _ _ h' => (nomatch h')⟩

/-- A choice matters only for the entries of the order. -/
theorem Observes.congr {takes' : ℕ → Bool} (h : Observes history takes state order)
    (hsame : ∀ i ∈ order, takes' i = takes i) : Observes history takes' state order := by
  induction order generalizing state with
  | nil => trivial
  | cons i order ih =>
    intro entry hentry
    obtain ⟨hread, hrest⟩ := h entry hentry
    have heffect : effect takes' i entry state = effect takes i entry state := by
      unfold effect
      rw [hsame i List.mem_cons_self]
    refine ⟨hread, ?_⟩
    rw [heffect]
    exact ih hrest fun j hj => hsame j (List.mem_cons_of_mem _ hj)

/-- **A register can follow the entries** exactly if it does for some choice of the timed-out writes. -/
theorem runs_iff (hnodup : order.Nodup) (hlt : ∀ i ∈ order, i < history.length) :
    Runs state (entriesAt history order) ↔ ∃ takes, Observes history takes state order := by
  induction order generalizing state with
  | nil => exact iff_of_true trivial ⟨fun _ => true, trivial⟩
  | cons i order ih =>
    obtain ⟨hnot, hnodup⟩ := List.nodup_cons.1 hnodup
    have hi : i < history.length := hlt i List.mem_cons_self
    have hentry : history[i]? = some history[i] := List.getElem?_eq_getElem hi
    have hrest := fun state => @ih state hnodup fun j hj => hlt j (List.mem_cons_of_mem _ hj)
    rw [entriesAt_cons hentry, Runs]
    constructor
    · rintro ⟨state', hstate', hruns⟩
      obtain ⟨takes, htakes⟩ := (hrest _).1 hruns
      obtain ⟨⟨takes₀, heffect⟩, hread⟩ := exists_effect hstate' i
      -- the choice for this entry is free, since it does not come again
      refine ⟨Function.update takes i takes₀, fun entry he => ?_⟩
      rw [hentry] at he
      cases he
      refine ⟨hread, ?_⟩
      rw [heffect _ (Function.update_self ..)]
      refine htakes.congr fun j hj => Function.update_of_ne ?_ ..
      rintro rfl
      exact hnot hj
    · rintro ⟨takes, htakes⟩
      obtain ⟨hread, hobs⟩ := htakes _ hentry
      exact ⟨_, effect_mem_after hread, (hrest _).2 ⟨takes, hobs⟩⟩

/-- The reads of an order observe the register exactly if each one does. -/
theorem observes_iff (start : List ℕ) (hlt : ∀ i ∈ order, i < history.length) :
    Observes history takes (register history takes start) order ↔
      ∀ before i after entry observed, order = before ++ i :: after → history[i]? = some entry →
        entry.operation = .read → entry.outcome = .ok observed →
        observed = register history takes (start ++ before) := by
  induction order generalizing start with
  | nil =>
    refine iff_of_true trivial fun before i after entry observed h => ?_
    cases before <;> cases h
  | cons j order ih =>
    have hj : j < history.length := hlt j List.mem_cons_self
    have hentry : history[j]? = some history[j] := List.getElem?_eq_getElem hj
    have hregister : register history takes (start ++ [j]) =
        effect takes j history[j] (register history takes start) := by
      rw [register, List.foldl_append, List.foldl_cons, List.foldl_nil, hentry]
      rfl
    have hrest := ih (start ++ [j]) fun k hk => hlt k (List.mem_cons_of_mem _ hk)
    rw [hregister] at hrest
    constructor
    · rintro h before i after entry observed heq he hop hout
      obtain ⟨hread, hobs⟩ := h _ hentry
      cases before with
      | nil =>
        cases heq
        rw [hentry] at he
        cases he
        rw [List.append_nil]
        exact hread observed hop hout
      | cons k before =>
        cases heq
        have hlater := hrest.1 hobs before i after entry observed rfl he hop hout
        rwa [List.append_assoc] at hlater
    · intro h entry he
      rw [hentry] at he
      cases he
      refine ⟨fun observed hop hout => ?_, hrest.2 fun before i after entry observed heq he hop hout => ?_⟩
      · have hhead := h [] j order _ observed rfl hentry hop hout
        rwa [List.append_nil] at hhead
      · rw [List.append_assoc]
        exact h (j :: before) i after entry observed (by rw [heq]; rfl) he hop hout

end Criterion

/-- **The checker decides its criterion**, for every history. -/
theorem checker_decides (history : List HistoryEntry) :
    isLinearizableShared history = true ↔ ∃ order takes, Criterion history order takes := by
  rw [isLinearizableShared_eq, isLinearizable_iff]
  constructor
  · rintro ⟨order, hnodup, hmem, hprec, hruns⟩
    have hlt : ∀ i ∈ order, i < history.length := fun i hi => (hmem i).1 hi
    obtain ⟨takes, hobs⟩ := (runs_iff hnodup hlt).1 hruns
    refine ⟨order, takes, ?_, hprec, ?_⟩
    · refine (List.perm_ext_iff_of_nodup hnodup List.nodup_range).2 fun i => ?_
      rw [hmem, List.mem_range]
    · have hreads := (observes_iff [] hlt).1 hobs
      simpa only [List.nil_append] using hreads
  · rintro ⟨order, takes, htotal, hprec, hreads⟩
    have hmem : ∀ i, i ∈ order ↔ i < history.length := fun i => by rw [htotal.mem_iff, List.mem_range]
    have hnodup : order.Nodup := htotal.nodup_iff.2 List.nodup_range
    have hlt : ∀ i ∈ order, i < history.length := fun i hi => (hmem i).1 hi
    refine ⟨order, hnodup, hmem, hprec, (runs_iff hnodup hlt).2 ⟨takes, ?_⟩⟩
    refine (observes_iff [] hlt).2 ?_
    simpa only [List.nil_append] using hreads

end NutDb.Linearizability
