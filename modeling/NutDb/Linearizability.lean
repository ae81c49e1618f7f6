/-
  The register-history checker (`src/linearizability.rs`).

  `is_linearizable` searches for an order of all entries that respects real
  time and that a register can follow.  `Linearizes` says what the search decides
  (`isLinearizable_iff`).

  `Sequential` is the history that a checker should look for: operations placed
  at points in time, with any of the timed-out writes among them.  A timed-out
  write may take effect after the time at which its client gave up.  The search
  does not look there: it finds the sequential histories in which every
  timed-out write has taken effect by then (`isLinearizable_iff_inTime`).
-/
import NutDb.Lib.Bytes

namespace NutDb.Linearizability

open Lib

/-- `Operation`. -/
inductive Operation where
  | write (value : String)
  | read
  deriving DecidableEq, Repr

/-- `Outcome`. -/
inductive Outcome where
  | ok (observed : Option String)
  | fail
  | info
  deriving DecidableEq, Repr

/-- `HistoryEntry`. -/
structure HistoryEntry where
  id : U64
  invoke : U64
  complete : U64
  operation : Operation
  outcome : Outcome
  deriving DecidableEq, Repr

/-- `has_unordered_predecessor`. -/
def hasUnorderedPredecessor (history : List HistoryEntry) (used : List Bool) (candidate : ℕ)
    (entry : HistoryEntry) : Bool :=
  history.zipIdx.any fun (other, index) =>
    !used.getD index true && decide (index ≠ candidate) && decide (other.complete < entry.invoke)

/-- The cases of `search` for the entry that comes next; `search` is the search for the rest. -/
def place (search : Option String → Bool) (state : Option String) (entry : HistoryEntry) : Bool :=
  match entry.operation, entry.outcome with
  | _, .fail => search state
  | .write value, .ok _ => search (some value)
  | .read, .ok observed => if observed = state then search state else false
  | .write value, .info => search state || search (some value)
  | .read, .info => search state

/-- `search`, with as many levels as there are entries to place. -/
def search (history : List HistoryEntry) : ℕ → List Bool → Option String → Bool
  | 0, used, _ => used.all id
  | n + 1, used, state =>
    if used.all id then true
    else history.zipIdx.any fun (entry, index) =>
      if used.getD index true || hasUnorderedPredecessor history used index entry then false
      else place (search history n (used.set index true)) state entry

/-- `is_linearizable`. -/
def isLinearizable (history : List HistoryEntry) : Bool :=
  search history history.length (List.replicate history.length false) none

/-! ## What the search decides -/

/-- The states of the register after an entry. -/
def after (state : Option String) (entry : HistoryEntry) : List (Option String) :=
  match entry.operation, entry.outcome with
  | _, .fail => [state]
  | .write value, .ok _ => [some value]
  | .read, .ok observed => if observed = state then [state] else []
  | .write value, .info => [state, some value]
  | .read, .info => [state]

/-- A register in the given state can follow the entries. -/
def Runs : Option String → List HistoryEntry → Prop
  | _, [] => True
  | state, entry :: rest => ∃ state' ∈ after state entry, Runs state' rest

/-- The first entry may come before the second: it is not invoked after the second has completed. -/
def MayPrecede (history : List HistoryEntry) (i j : ℕ) : Prop :=
  ∀ a b, history[i]? = some a → history[j]? = some b → ¬ b.complete < a.invoke

/-- The entries with the given indices. -/
def entriesAt (history : List HistoryEntry) (order : List ℕ) : List HistoryEntry :=
  order.filterMap fun i => history[i]?

/-- An order of the entries that are not used, in which the register can follow them. -/
structure Linearizes (history : List HistoryEntry) (used : List Bool) (state : Option String)
    (order : List ℕ) : Prop where
  nodup : order.Nodup
  mem : ∀ i, i ∈ order ↔ used[i]? = some false
  precede : order.Pairwise (MayPrecede history)
  runs : Runs state (entriesAt history order)

section Search
variable {history : List HistoryEntry} {used : List Bool} {state : Option String} {order : List ℕ}
  {entry : HistoryEntry} {index : ℕ}

theorem place_iff {f : Option String → Bool} :
    place f state entry = true ↔ ∃ state' ∈ after state entry, f state' = true := by
  unfold place after
  rcases entry.operation with value | _
  · rcases entry.outcome with observed | _ | _ <;> simp
  · rcases entry.outcome with observed | _ | _
    · by_cases h : observed = state <;> simp [h]
    · simp
    · simp

theorem entriesAt_cons (h : history[index]? = some entry) (order : List ℕ) :
    entriesAt history (index :: order) = entry :: entriesAt history order := by
  rw [entriesAt, List.filterMap_cons_some h]
  rfl

theorem used_set (hused : used[index]? = some false) (i : ℕ) :
    (used.set index true)[i]? = some false ↔ used[i]? = some false ∧ i ≠ index := by
  have hlt : index < used.length := (List.getElem?_eq_some_iff.1 hused).1
  rw [List.getElem?_set]
  by_cases hi : index = i
  · subst hi
    simp [hlt]
  · simp [hi, Ne.symm hi]

theorem count_set (hused : used[index]? = some false) :
    (used.set index true).count false + 1 = used.count false := by
  obtain ⟨hlt, hget⟩ := List.getElem?_eq_some_iff.1 hused
  have hpos : 0 < used.count false := List.count_pos_iff.2 (hget ▸ List.getElem_mem hlt)
  rw [List.count_set hlt, hget]
  simp
  omega

theorem getD_eq_false : used.getD index true = false ↔ used[index]? = some false := by
  rw [List.getD_eq_getElem?_getD]
  cases used[index]? <;> simp

/-- The entry has to wait for no entry that is not used. -/
theorem hasUnorderedPredecessor_eq_false (hentry : history[index]? = some entry) :
    hasUnorderedPredecessor history used index entry = false ↔
      ∀ j, used[j]? = some false → j ≠ index → MayPrecede history index j := by
  rw [hasUnorderedPredecessor, List.any_eq_false]
  constructor
  · intro h j hj hne a b ha hb hlt
    rw [hentry] at ha
    cases ha
    refine h (b, j) (List.mem_zipIdx_iff_getElem?.2 hb) ?_
    simp only [getD_eq_false.2 hj, Bool.not_false, Bool.true_and, Bool.and_eq_true, decide_eq_true_eq]
    exact ⟨hne, hlt⟩
  · rintro h ⟨b, j⟩ hmem hbad
    simp only [Bool.and_eq_true, Bool.not_eq_true', decide_eq_true_eq] at hbad
    obtain ⟨⟨h1, h2⟩, h3⟩ := hbad
    exact h j (getD_eq_false.1 h1) h2 entry b hentry (List.mem_zipIdx_iff_getElem?.1 hmem) h3

/-- **The search decides** whether there is such an order. -/
theorem search_iff (n : ℕ) (hlen : used.length = history.length) (hn : used.count false = n) :
    search history n used state = true ↔ ∃ order, Linearizes history used state order := by
  induction n generalizing used state with
  | zero =>
    have hall : used.all id = true := by
      rw [List.all_eq_true]
      intro flag hflag
      cases flag with
      | false => exact absurd hflag (List.count_eq_zero.1 hn)
      | true => rfl
    have hnone : ∀ i, used[i]? ≠ some false := fun i hi =>
      List.count_eq_zero.1 hn (List.mem_of_getElem? hi)
    rw [search, hall]
    refine ⟨fun _ => ⟨[], List.nodup_nil, fun i => ?_, List.Pairwise.nil, trivial⟩, fun _ => rfl⟩
    simp [hnone i]
  | succ n ih =>
    have hall : ¬ used.all id = true := by
      intro h
      have hmem : false ∈ used := List.count_pos_iff.1 (by omega)
      exact absurd (List.all_eq_true.1 h false hmem) (by simp)
    rw [search, if_neg hall, List.any_eq_true]
    constructor
    · rintro ⟨⟨entry, index⟩, hmem, hplace⟩
      have hentry := List.mem_zipIdx_iff_getElem?.1 hmem
      simp only at hentry hplace
      split_ifs at hplace with hskip
      simp only [Bool.or_eq_true, not_or, Bool.not_eq_true] at hskip
      have hused := getD_eq_false.1 hskip.1
      have hfirst := (hasUnorderedPredecessor_eq_false hentry).1 hskip.2
      obtain ⟨state', hstate', hrest⟩ := place_iff.1 hplace
      have hcount := count_set hused
      obtain ⟨order, ho⟩ := (ih (by simpa using hlen) (by omega)).1 hrest
      have hmemo : ∀ i, i ∈ order ↔ used[i]? = some false ∧ i ≠ index := fun i => by
        rw [ho.mem, used_set hused]
      refine ⟨index :: order, List.nodup_cons.2 ⟨fun h => ((hmemo index).1 h).2 rfl, ho.nodup⟩,
        fun i => ?_, List.pairwise_cons.2 ⟨fun j hj => ?_, ho.precede⟩, ?_⟩
      · rw [List.mem_cons, hmemo]
        by_cases hi : i = index
        · simp [hi, hused]
        · simp [hi]
      · exact hfirst j ((hmemo j).1 hj).1 ((hmemo j).1 hj).2
      · rw [entriesAt_cons hentry]
        exact ⟨state', hstate', ho.runs⟩
    · rintro ⟨order, ho⟩
      cases order with
      | nil =>
        obtain ⟨i, hi⟩ := List.getElem?_of_mem (List.count_pos_iff.1 (by omega : 0 < used.count false))
        exact absurd ((ho.mem i).2 hi) List.not_mem_nil
      | cons index order =>
        have hused := (ho.mem index).1 List.mem_cons_self
        have hlt : index < history.length := hlen ▸ (List.getElem?_eq_some_iff.1 hused).1
        have hentry : history[index]? = some history[index] := List.getElem?_eq_getElem hlt
        obtain ⟨hnot, hnodup⟩ := List.nodup_cons.1 ho.nodup
        obtain ⟨hfirst, hprec⟩ := List.pairwise_cons.1 ho.precede
        have hmemo : ∀ j, used[j]? = some false → j ≠ index → j ∈ order := fun j hj hne =>
          (List.mem_cons.1 ((ho.mem j).2 hj)).resolve_left hne
        have hruns := ho.runs
        rw [entriesAt_cons hentry] at hruns
        obtain ⟨state', hstate', hrest⟩ := hruns
        have hskip : ¬ (used.getD index true ||
            hasUnorderedPredecessor history used index history[index]) = true := by
          rw [getD_eq_false.2 hused, (hasUnorderedPredecessor_eq_false hentry).2 fun j hj hne =>
            hfirst j (hmemo j hj hne)]
          simp
        have hcount := count_set hused
        refine ⟨(history[index], index), List.mem_zipIdx_iff_getElem?.2 hentry, ?_⟩
        simp only
        rw [if_neg hskip, place_iff]
        refine ⟨state', hstate', (ih (by simpa using hlen) (by omega)).2 ⟨order, hnodup, fun i => ?_,
          hprec, hrest⟩⟩
        rw [used_set hused]
        refine ⟨fun hi => ⟨(ho.mem i).1 (List.mem_cons_of_mem _ hi), fun h => hnot (h ▸ hi)⟩,
          fun hi => hmemo i hi.1 hi.2⟩

/-- **The checker decides** whether the entries can be ordered. -/
theorem isLinearizable_iff (history : List HistoryEntry) : isLinearizable history = true ↔
    ∃ order : List ℕ, order.Nodup ∧ (∀ i, i ∈ order ↔ i < history.length) ∧
      order.Pairwise (MayPrecede history) ∧ Runs none (entriesAt history order) := by
  have hmem : ∀ i, (List.replicate history.length false)[i]? = some false ↔ i < history.length := by
    intro i
    rw [List.getElem?_replicate]
    split_ifs with hi <;> simp [hi]
  rw [isLinearizable, search_iff _ (List.length_replicate) (List.count_replicate_self)]
  constructor
  · rintro ⟨order, h1, h2, h3, h4⟩
    exact ⟨order, h1, fun i => (h2 i).trans (hmem i), h3, h4⟩
  · rintro ⟨order, h1, h2, h3, h4⟩
    exact ⟨order, h1, fun i => (h2 i).trans (hmem i).symm, h3, h4⟩

end Search

/-! ## Sequential histories -/

/-- An operation that takes effect does so after its invocation, and by the time of its completion;
    a timed-out write perhaps later (`late`). -/
def MayStand (late : Prop) (entry : HistoryEntry) (time : ℕ) : Prop :=
  entry.invoke.val ≤ time ∧
    match entry.operation, entry.outcome with
    | _, .ok _ => time ≤ entry.complete.val
    | .write _, .info => late ∨ time ≤ entry.complete.val
    | _, _ => False

/-- On a register in the given state, every read that has completed returns the latest write. -/
def Legal : Option String → List HistoryEntry → Prop
  | _, [] => True
  | state, entry :: rest =>
    match entry.operation with
    | .write value => Legal (some value) rest
    | .read => (∀ observed, entry.outcome = .ok observed → observed = state) ∧ Legal state rest

/-- A sequential history of a register that starts with no value: entries, placed at points in
    time.  All completed operations are among them, and no failed one. -/
structure Sequential (history : List HistoryEntry) (late : Prop) (placed : List (ℕ × ℕ)) : Prop where
  nodup : (placed.map Prod.fst).Nodup
  sorted : placed.Pairwise fun p q => p.2 ≤ q.2
  stands : ∀ p ∈ placed, ∃ entry, history[p.1]? = some entry ∧ MayStand late entry p.2
  complete : ∀ i entry observed, history[i]? = some entry → entry.outcome = .ok observed →
    i ∈ placed.map Prod.fst
  legal : Legal none (entriesAt history (placed.map Prod.fst))

section Sequential
variable {history : List HistoryEntry} {state : Option String} {order : List ℕ}
  {placed : List (ℕ × ℕ)} {late : Prop} {entry : HistoryEntry}

/-- Points in time from `t` on for the entries of an order that take effect. -/
structure Places (history : List HistoryEntry) (t : ℕ) (state : Option String) (order : List ℕ)
    (placed : List (ℕ × ℕ)) : Prop where
  sublist : (placed.map Prod.fst).Sublist order
  sorted : placed.Pairwise fun p q => p.2 ≤ q.2
  stands : ∀ p ∈ placed, t ≤ p.2 ∧ ∃ entry, history[p.1]? = some entry ∧ MayStand False entry p.2
  complete : ∀ i ∈ order, ∀ entry observed, history[i]? = some entry →
    entry.outcome = .ok observed → i ∈ placed.map Prod.fst
  legal : Legal state (entriesAt history (placed.map Prod.fst))

namespace Places
variable {i t t' : ℕ}

/-- The first entry is left out. -/
theorem skip (h : Places history t' state order placed) (ht : t ≤ t')
    (he : history[i]? = some entry) (hok : ∀ observed, entry.outcome ≠ .ok observed) :
    Places history t state (i :: order) placed := by
  refine ⟨h.sublist.cons i, h.sorted, fun p hp => ⟨ht.trans (h.stands p hp).1, (h.stands p hp).2⟩,
    fun j hj b observed hb ho => ?_, h.legal⟩
  rcases List.mem_cons.1 hj with rfl | hj
  · rw [he] at hb
    cases hb
    exact absurd ho (hok observed)
  · exact h.complete j hj b observed hb ho

/-- The first entry takes effect. -/
theorem take {state' : Option String} (h : Places history t' state' order placed) (ht : t ≤ t')
    (he : history[i]? = some entry) (hstand : MayStand False entry t')
    (hlegal : ∀ rest, Legal state' rest → Legal state (entry :: rest)) :
    Places history t state (i :: order) ((i, t') :: placed) := by
  refine ⟨h.sublist.cons_cons i, List.pairwise_cons.2 ⟨fun p hp => (h.stands p hp).1, h.sorted⟩,
    fun p hp => ?_, fun j hj b observed hb ho => ?_, ?_⟩
  · rcases List.mem_cons.1 hp with rfl | hp
    · exact ⟨ht, entry, he, hstand⟩
    · exact ⟨ht.trans (h.stands p hp).1, (h.stands p hp).2⟩
  · rcases List.mem_cons.1 hj with rfl | hj
    · exact List.mem_cons_self
    · exact List.mem_cons_of_mem _ (h.complete j hj b observed hb ho)
  · rw [List.map_cons, entriesAt_cons he]
    exact hlegal _ h.legal

end Places

/-- From an order to points in time: an entry that takes effect does so as soon as it and all
    entries before it are invoked. -/
theorem places_of_runs (t : ℕ) (hentry : ∀ i ∈ order, ∃ entry, history[i]? = some entry)
    (hprec : order.Pairwise (MayPrecede history))
    (ht : ∀ i ∈ order, ∀ entry, history[i]? = some entry →
      t ≤ entry.complete.val ∧ entry.invoke ≤ entry.complete)
    (hruns : Runs state (entriesAt history order)) : ∃ placed, Places history t state order placed := by
  induction order generalizing state t with
  | nil => exact ⟨[], List.Sublist.slnil, List.Pairwise.nil, by simp, by simp, trivial⟩
  | cons i order ih =>
    obtain ⟨entry, he⟩ := hentry i List.mem_cons_self
    obtain ⟨hfirst, hprec⟩ := List.pairwise_cons.1 hprec
    obtain ⟨hte, hvalid⟩ := ht i List.mem_cons_self entry he
    rw [entriesAt_cons he] at hruns
    obtain ⟨state', hstate', hrest⟩ := hruns
    obtain ⟨placed, h⟩ := ih (max t entry.invoke.val)
      (fun j hj => hentry j (List.mem_cons_of_mem _ hj)) hprec (fun j hj b hb => by
        obtain ⟨h1, h2⟩ := ht j (List.mem_cons_of_mem _ hj) b hb
        have h3 := hfirst j hj entry b he hb
        rw [Fin.lt_def] at h3
        exact ⟨by omega, h2⟩) hrest
    have hle : t ≤ max t entry.invoke.val := le_max_left _ _
    have hinv : entry.invoke.val ≤ max t entry.invoke.val := le_max_right _ _
    have hcom : max t entry.invoke.val ≤ entry.complete.val := max_le hte (Fin.le_def.1 hvalid)
    have idle (hok : ∀ observed, entry.outcome ≠ .ok observed) (hs : state' = state) :
        ∃ placed, Places history t state (i :: order) placed := ⟨placed, (hs ▸ h).skip hle he hok⟩
    rcases hop : entry.operation with value | _
    · have hlegal : ∀ rest, Legal (some value) rest → Legal state (entry :: rest) := fun rest hrest => by
        rw [Legal, hop]
        exact hrest
      rcases hout : entry.outcome with observed | _ | _
      · simp only [after, hop, hout, List.mem_singleton] at hstate'
        subst hstate'
        exact ⟨_, h.take hle he ⟨hinv, by rw [hop, hout]; exact hcom⟩ hlegal⟩
      · simp only [after, hop, hout, List.mem_singleton] at hstate'
        exact idle (by simp [hout]) hstate'
      · simp only [after, hop, hout, List.mem_cons, List.not_mem_nil, or_false] at hstate'
        rcases hstate' with hstate' | hstate'
        · exact idle (by simp [hout]) hstate'
        · subst hstate'
          exact ⟨_, h.take hle he ⟨hinv, by rw [hop, hout]; exact Or.inr hcom⟩ hlegal⟩
    · rcases hout : entry.outcome with observed | _ | _
      · simp only [after, hop, hout] at hstate'
        split_ifs at hstate' with ho
        · rw [List.mem_singleton] at hstate'
          subst hstate'
          refine ⟨_, h.take hle he ⟨hinv, by rw [hop, hout]; exact hcom⟩ fun rest hrest => ?_⟩
          rw [Legal, hop]
          exact ⟨fun observed' h => by rw [hout] at h; cases h; exact ho, hrest⟩
        · exact absurd hstate' List.not_mem_nil
      · simp only [after, hop, hout, List.mem_singleton] at hstate'
        exact idle (by simp [hout]) hstate'
      · simp only [after, hop, hout, List.mem_singleton] at hstate'
        exact idle (by simp [hout]) hstate'

/-- Only late writes take effect after their completion. -/
theorem MayStand.le_complete {t : ℕ} (h : MayStand False entry t) : t ≤ entry.complete.val := by
  obtain ⟨-, h⟩ := h
  rcases hop : entry.operation with value | _
  · rcases hout : entry.outcome with observed | _ | _
    · simpa only [hop, hout] using h
    · simp only [hop, hout] at h
    · simpa only [hop, hout, false_or] using h
  · rcases hout : entry.outcome with observed | _ | _
    · simpa only [hop, hout] using h
    · simp only [hop, hout] at h
    · simp only [hop, hout] at h

/-- An entry that may be left out. -/
theorem mem_after_self (h : ∀ observed, entry.outcome ≠ .ok observed) (state : Option String) :
    state ∈ after state entry := by
  unfold after
  rcases hout : entry.outcome with observed | _ | _
  · exact absurd hout (h observed)
  · rcases entry.operation with value | _ <;> simp
  · rcases entry.operation with value | _ <;> simp

/-- The state after an entry that takes effect. -/
theorem legal_cons {t : ℕ} {rest : List HistoryEntry} (hstand : MayStand late entry t)
    (h : Legal state (entry :: rest)) : ∃ state' ∈ after state entry, Legal state' rest := by
  obtain ⟨-, hstand⟩ := hstand
  unfold Legal at h
  unfold after
  rcases hop : entry.operation with value | _
  · rw [hop] at h hstand
    rcases hout : entry.outcome with observed | _ | _
    · exact ⟨_, List.mem_singleton_self _, h⟩
    · rw [hout] at hstand
      exact hstand.elim
    · exact ⟨some value, by simp, h⟩
  · rw [hop] at h hstand
    rcases hout : entry.outcome with observed | _ | _
    · exact ⟨state, by simp [h.1 observed hout], h.2⟩
    · rw [hout] at hstand
      exact hstand.elim
    · rw [hout] at hstand
      exact hstand.elim

/-- From a part of an order that a register can follow to the whole: the other entries have no
    effect. -/
theorem runs_of_legal {taken : List ℕ} (hsub : taken.Sublist order) (hnodup : order.Nodup)
    (hentry : ∀ i ∈ order, ∃ entry, history[i]? = some entry)
    (hstands : ∀ i ∈ taken, ∀ entry, history[i]? = some entry → ∃ t, MayStand late entry t)
    (hidle : ∀ i ∈ order, i ∉ taken → ∀ entry, history[i]? = some entry →
      ∀ observed, entry.outcome ≠ .ok observed)
    (hlegal : Legal state (entriesAt history taken)) : Runs state (entriesAt history order) := by
  induction hsub generalizing state with
  | slnil => trivial
  | @cons taken order i hsub ih =>
    obtain ⟨entry, he⟩ := hentry i List.mem_cons_self
    obtain ⟨hnot, hnodup⟩ := List.nodup_cons.1 hnodup
    rw [entriesAt_cons he]
    refine ⟨state, mem_after_self (hidle i List.mem_cons_self (fun h => hnot (hsub.subset h)) entry he) _,
      ih hnodup (fun j hj => hentry j (List.mem_cons_of_mem _ hj)) hstands
        (fun j hj => hidle j (List.mem_cons_of_mem _ hj)) hlegal⟩
  | @cons_cons taken order i hsub ih =>
    obtain ⟨entry, he⟩ := hentry i List.mem_cons_self
    obtain ⟨hnot, hnodup⟩ := List.nodup_cons.1 hnodup
    obtain ⟨t, ht⟩ := hstands i List.mem_cons_self entry he
    rw [entriesAt_cons he] at hlegal ⊢
    obtain ⟨state', hstate', hrest⟩ := legal_cons ht hlegal
    refine ⟨state', hstate', ih hnodup (fun j hj => hentry j (List.mem_cons_of_mem _ hj))
      (fun j hj => hstands j (List.mem_cons_of_mem _ hj)) (fun j hj hjt => ?_) hrest⟩
    refine hidle j (List.mem_cons_of_mem _ hj) fun h => ?_
    rcases List.mem_cons.1 h with rfl | h
    · exact hnot hj
    · exact hjt h

/-- From points in time to an order: the entries that have no effect stand at their invocation. -/
theorem order_of_sequential (hvalid : ∀ entry ∈ history, entry.invoke ≤ entry.complete)
    (h : Sequential history False placed) :
    ∃ order : List ℕ, order.Nodup ∧ (∀ i, i ∈ order ↔ i < history.length) ∧
      order.Pairwise (MayPrecede history) ∧ Runs none (entriesAt history order) := by
  set idle := ((List.range history.length).filter fun i => decide (i ∉ placed.map Prod.fst)).map
    fun i => (i, ((history[i]?).map fun entry => entry.invoke.val).getD 0) with hidle
  set sorted := (placed ++ idle).mergeSort fun p q => decide (p.2 ≤ q.2) with hsorted
  have hperm : sorted.Perm (placed ++ idle) := List.mergeSort_perm _ _
  have htimes : sorted.Pairwise fun p q => p.2 ≤ q.2 := by
    refine (List.pairwise_mergeSort (fun p q r h1 h2 => ?_) (fun p q => ?_) (placed ++ idle)).imp
      fun hpq => of_decide_eq_true hpq
    · rw [decide_eq_true_eq] at h1 h2 ⊢
      exact h1.trans h2
    · rw [Bool.or_eq_true, decide_eq_true_eq, decide_eq_true_eq]
      exact le_total _ _
  have hsub : placed.Sublist sorted := by
    refine List.sublist_mergeSort (fun p q r h1 h2 => ?_) (fun p q => ?_)
      (h.sorted.imp fun hpq => decide_eq_true hpq) (List.sublist_append_left _ _)
    · rw [decide_eq_true_eq] at h1 h2 ⊢
      exact h1.trans h2
    · rw [Bool.or_eq_true, decide_eq_true_eq, decide_eq_true_eq]
      exact le_total _ _
  have hfst : idle.map Prod.fst = (List.range history.length).filter
      fun i => decide (i ∉ placed.map Prod.fst) := by
    rw [hidle, List.map_map]
    exact List.map_id _
  -- every entry stands between its invocation and its completion
  have hstands : ∀ p ∈ sorted, ∃ entry, history[p.1]? = some entry ∧ entry.invoke.val ≤ p.2 ∧
      p.2 ≤ entry.complete.val := by
    intro p hp
    rcases List.mem_append.1 (hperm.mem_iff.1 hp) with hp | hp
    · obtain ⟨entry, he, hstand⟩ := h.stands p hp
      exact ⟨entry, he, hstand.1, hstand.le_complete⟩
    · obtain ⟨i, hi, rfl⟩ := List.mem_map.1 hp
      have hlt := List.mem_range.1 (List.mem_of_mem_filter hi)
      have he : history[i]? = some history[i] := List.getElem?_eq_getElem hlt
      refine ⟨history[i], he, by simp [he], ?_⟩
      simpa [he] using Fin.le_def.1 (hvalid _ (List.getElem_mem hlt))
  have hmem : ∀ i, i ∈ sorted.map Prod.fst ↔ i < history.length := by
    intro i
    rw [(hperm.map Prod.fst).mem_iff, List.map_append, hfst, List.mem_append, List.mem_filter,
      List.mem_range, decide_eq_true_eq]
    constructor
    · rintro (hi | hi)
      · obtain ⟨p, hp, rfl⟩ := List.mem_map.1 hi
        obtain ⟨entry, he, -⟩ := h.stands p hp
        exact (List.getElem?_eq_some_iff.1 he).1
      · exact hi.1
    · intro hi
      by_cases hip : i ∈ placed.map Prod.fst
      · exact Or.inl hip
      · exact Or.inr ⟨hi, hip⟩
  have hnodup : (sorted.map Prod.fst).Nodup := by
    rw [(hperm.map Prod.fst).nodup_iff, List.map_append, hfst, List.nodup_append]
    refine ⟨h.nodup, List.nodup_range.filter _, fun i hi j hj heq => ?_⟩
    subst heq
    have hnot := (List.mem_filter.1 hj).2
    exact of_decide_eq_true hnot hi
  refine ⟨sorted.map Prod.fst, hnodup, hmem, List.pairwise_map.2 (htimes.imp_of_mem ?_), ?_⟩
  · intro p q hp hq hpq a b ha hb hlt
    obtain ⟨a', ha', h1, -⟩ := hstands p hp
    obtain ⟨b', hb', -, h2⟩ := hstands q hq
    rw [ha] at ha'
    rw [hb] at hb'
    cases ha'
    cases hb'
    have := Fin.lt_def.1 hlt
    omega
  · have hplaces : ∀ i ∈ placed.map Prod.fst, ∀ entry, history[i]? = some entry →
        ∃ t, MayStand False entry t := by
      intro i hi entry he
      obtain ⟨p, hp, rfl⟩ := List.mem_map.1 hi
      obtain ⟨entry', he', hstand⟩ := h.stands p hp
      rw [he] at he'
      cases he'
      exact ⟨p.2, hstand⟩
    refine runs_of_legal (hsub.map Prod.fst) hnodup (fun i hi => ?_) hplaces
      (fun i _ hnot entry he observed hout => ?_) h.legal
    · have hlt := (hmem i).1 hi
      exact ⟨history[i], List.getElem?_eq_getElem hlt⟩
    · exact hnot (h.complete i entry observed he hout)

/-- **What the checker finds**: the sequential histories in which no timed-out write takes effect
    late. -/
theorem isLinearizable_iff_inTime (hvalid : ∀ entry ∈ history, entry.invoke ≤ entry.complete) :
    isLinearizable history = true ↔ ∃ placed, Sequential history False placed := by
  rw [isLinearizable_iff]
  constructor
  · rintro ⟨order, hnodup, hmem, hprec, hruns⟩
    obtain ⟨placed, h⟩ := places_of_runs 0
      (fun i hi => ⟨_, List.getElem?_eq_getElem ((hmem i).1 hi)⟩) hprec
      (fun i _ entry he => ⟨Nat.zero_le _, hvalid entry (List.mem_of_getElem? he)⟩) hruns
    exact ⟨placed, h.sublist.nodup hnodup, h.sorted, fun p hp => (h.stands p hp).2,
      fun i entry observed he => h.complete i ((hmem i).2 (List.getElem?_eq_some_iff.1 he).1) entry
        observed he, h.legal⟩
  · rintro ⟨placed, h⟩
    exact order_of_sequential hvalid h

/-- **The checker reports no phantom violation** of a history exactly if the history needs no late
    timed-out write: where some sequential history explains it, one does in which every timed-out
    write that takes effect has done so when its client gave up. -/
theorem no_phantom_iff (hvalid : ∀ entry ∈ history, entry.invoke ≤ entry.complete) :
    ((∃ placed, Sequential history True placed) → isLinearizable history = true) ↔
      ((∃ placed, Sequential history True placed) → ∃ placed, Sequential history False placed) := by
  rw [isLinearizable_iff_inTime hvalid]

/-- It needs none if nothing is invoked after a client has given up a write. -/
theorem Sequential.inTime (h : Sequential history True placed)
    (hinfo : ∀ w ∈ history, w.outcome = .info → ∀ entry ∈ history, entry.invoke ≤ w.complete) :
    ∃ placed, Sequential history False placed := by
  -- the last invocation
  set last := (history.map fun entry => entry.invoke.val).foldr max 0 with hlast
  have hle : ∀ entry ∈ history, entry.invoke.val ≤ last := fun entry he =>
    List.le_max_of_le (List.mem_map_of_mem he) le_rfl
  have hwrite : ∀ w ∈ history, w.outcome = .info → last ≤ w.complete.val := by
    intro w hw hout
    refine List.max_le_of_forall_le _ _ fun t ht => ?_
    obtain ⟨entry, he, rfl⟩ := List.mem_map.1 ht
    exact Fin.le_def.1 (hinfo w hw hout entry he)
  have hfst : (placed.map fun p => (p.1, min p.2 last)).map Prod.fst = placed.map Prod.fst := by
    rw [List.map_map]
    rfl
  refine ⟨placed.map fun p => (p.1, min p.2 last), by rw [hfst]; exact h.nodup,
    List.pairwise_map.2 (h.sorted.imp fun hpq => min_le_min_right _ hpq), fun p hp => ?_,
    fun i entry observed he ho => by rw [hfst]; exact h.complete i entry observed he ho,
    by rw [hfst]; exact h.legal⟩
  obtain ⟨q, hq, rfl⟩ := List.mem_map.1 hp
  obtain ⟨entry, he, hinv, hstand⟩ := h.stands q hq
  have hmem := List.mem_of_getElem? he
  refine ⟨entry, he, le_min hinv (hle entry hmem), ?_⟩
  rcases hop : entry.operation with value | _ <;>
    rcases hout : entry.outcome with observed | _ | _ <;>
    simp only [hop, hout] at hstand ⊢
  · exact (min_le_left _ _).trans hstand
  · exact Or.inr ((min_le_right _ _).trans (hwrite entry hmem hout))
  · exact (min_le_left _ _).trans hstand

end Sequential

/-! ## A late write -/

/-- A write times out, a read still finds nothing, and a later read finds the write. -/
def lateWrite : List HistoryEntry :=
  [⟨1, 1, 2, .write "maybe", .info⟩, ⟨2, 3, 4, .read, .ok none⟩, ⟨3, 5, 6, .read, .ok (some "maybe")⟩]

/-- The write has taken effect between the reads. -/
theorem sequential_lateWrite : Sequential lateWrite True [(1, 3), (0, 4), (2, 5)] := by
  refine ⟨by decide, by decide, ?_, ?_, ?_⟩
  · simp [lateWrite, MayStand]
  · intro i entry observed he hout
    rcases i with _ | _ | _ | i
    · cases he
      cases hout
    · simp
    · simp
    · cases he
  · simp [lateWrite, Legal, entriesAt]

/-- The history of the late write is explained, and the checker rejects it. -/
theorem phantom_lateWrite : ¬ ∀ history : List HistoryEntry,
    (∀ entry ∈ history, entry.invoke ≤ entry.complete) →
      (∃ placed, Sequential history True placed) → isLinearizable history = true := by
  intro h
  have hfound := h lateWrite (by decide) ⟨_, sequential_lateWrite⟩
  exact absurd hfound (by decide)

/-- The history of the late write does need it. -/
theorem no_phantom_iff_lateWrite : ¬ ∃ placed, Sequential lateWrite False placed := by
  intro h
  have hvalid : ∀ entry ∈ lateWrite, entry.invoke ≤ entry.complete := by decide
  have hiff := no_phantom_iff hvalid
  exact absurd (hiff.2 (fun _ => h) ⟨_, sequential_lateWrite⟩) (by decide)

end NutDb.Linearizability
