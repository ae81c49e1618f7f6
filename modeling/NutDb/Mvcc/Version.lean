/-
  Versions and version chains (`src/version.rs`, and `visible_value`,
  `latest_change`, `apply_versions` of `src/txn.rs`).

  A chain belongs to one key.  A commit closes the newest version and adds the
  next one; the collector removes versions from the middle.  `Chain.Reads low n val`
  says what such a chain is good for: at every snapshot from `low` to `n` it
  shows the value `val` has there.  Commits extend the range at its upper end and
  the collector cuts it at its lower end.
-/
import NutDb.Lib.Sorted

namespace NutDb

open Lib

namespace Mvcc

/-- `Version`. -/
structure Version where
  value : String
  createdAt : U64
  deletedAt : Option U64
  deriving DecidableEq, Repr

namespace Version

/-- `Version::visible_at`. -/
def visibleAt (v : Version) (snapshot : U64) : Bool :=
  decide (v.createdAt ≤ snapshot) && (v.deletedAt.map fun deleted => decide (deleted > snapshot)).getD true

/-- `Version::last_modified`. -/
def lastModified (v : Version) : U64 := max (v.deletedAt.getD v.createdAt) v.createdAt

end Version

/-- The version map: a chain for each key. -/
abbrev Versions := List (String × List Version)

/-- The writes of a transaction: the new value of each key, or its deletion. -/
abbrev Writes := List (String × Option String)

/-- What a chain shows at a snapshot: the newest visible version. -/
def chainValue (chain : List Version) (snapshot : U64) : Option String :=
  (chain.reverse.find? fun version => version.visibleAt snapshot).map Version.value

/-- `visible_value`. -/
def visibleValue (versions : Versions) (key : String) (snapshot : U64) : Option String := do
  let chain ← versions.lookup key
  chainValue chain snapshot

/-- `latest_change`. -/
def latestChange (versions : Versions) (key : String) : U64 :=
  (((versions.lookup key).bind List.getLast?).map Version.lastModified).getD 0

/-- Mark a version as deleted, unless it is. -/
def close (timestamp : U64) (v : Version) : Version :=
  if v.deletedAt.isNone then { v with deletedAt := some timestamp } else v

/-- What a commit does to the chain of a key that it writes. -/
def applyWrite (timestamp : U64) (value : Option String) (chain : List Version) : List Version :=
  let chain := chain.modifyLast (close timestamp)
  match value with
  | some value => chain ++ [⟨value, timestamp, none⟩]
  | none => chain

/-- `apply_versions`. -/
def applyVersions (versions : Versions) (writes : Writes) (timestamp : U64) : Versions :=
  writes.foldl (fun versions w =>
    insertEntry w.1 (applyWrite timestamp w.2 ((versions.lookup w.1).getD [])) versions) versions

/-- The versions that a collection with the given watermark keeps. -/
def Version.kept (watermark : U64) (v : Version) : Bool :=
  !(v.deletedAt.map fun deleted => decide (deleted < watermark)).getD false

/-- The loop of `gc` over the version map. -/
def retainVersions (watermark : U64) (versions : Versions) : Versions :=
  (versions.map fun e => (e.1, e.2.filter fun v => v.kept watermark)).filter fun e => !e.2.isEmpty

/-! ## Chains -/

/-- A chain that shows `val s` at every snapshot `s` from `low` to `now`.  Nothing in it is newer
    than `now`, and only its last version can be current. -/
structure Reads (low now : ℕ) (val : ℕ → Option String) (chain : List Version) : Prop where
  shows : ∀ s : U64, low ≤ s.val → s.val ≤ now → chainValue chain s = val s.val
  old : ∀ v ∈ chain, v.createdAt.val ≤ now ∧ ∀ d, v.deletedAt = some d → d.val ≤ now
  closed : ∀ v ∈ chain.dropLast, v.deletedAt ≠ none

section Chain
variable {low now : ℕ} {val : ℕ → Option String} {chain : List Version} {ts : U64}

theorem chainValue_concat (chain : List Version) (v : Version) (s : U64) :
    chainValue (chain ++ [v]) s = if v.visibleAt s then some v.value else chainValue chain s := by
  simp only [chainValue, List.reverse_append, List.reverse_singleton, List.singleton_append,
    List.find?_cons]
  cases v.visibleAt s <;> rfl

theorem reads_nil (h : ∀ s, low ≤ s → s ≤ now → val s = none) : Reads low now val [] :=
  ⟨fun s h1 h2 => (h s.val h1 h2).symm, by simp, by simp⟩

theorem visibleAt_iff {v : Version} {s : U64} :
    v.visibleAt s = true ↔ v.createdAt ≤ s ∧ ∀ d, v.deletedAt = some d → s < d := by
  unfold Version.visibleAt
  cases v.deletedAt <;> simp

/-- What a chain shows depends on which of its versions are visible. -/
theorem chainValue_congr {s s' : U64} (h : ∀ v ∈ chain, v.visibleAt s = v.visibleAt s') :
    chainValue chain s = chainValue chain s' := by
  induction chain using List.reverseRecOn with
  | nil => rfl
  | append_singleton c v ih =>
    rw [chainValue_concat, chainValue_concat, h v (by simp), ih fun w hw => h w (by simp [hw])]

theorem chainValue_eq_none {s : U64} (h : ∀ v ∈ chain, v.visibleAt s = false) :
    chainValue chain s = none := by
  induction chain using List.reverseRecOn with
  | nil => rfl
  | append_singleton c v ih =>
    rw [chainValue_concat, h v (by simp), ih fun w hw => h w (by simp [hw])]
    rfl

/-- Versions that are not visible can be left out. -/
theorem chainValue_filter {s : U64} {p : Version → Bool}
    (h : ∀ v ∈ chain, p v = false → v.visibleAt s = false) :
    chainValue (chain.filter p) s = chainValue chain s := by
  induction chain using List.reverseRecOn with
  | nil => rfl
  | append_singleton c v ih =>
    have ih := ih fun w hw => h w (by simp [hw])
    rw [List.filter_append, chainValue_concat]
    rcases hp : p v with _ | _
    · rw [List.filter_cons_of_neg (by simp [hp]), List.filter_nil, List.append_nil, ih,
        h v (by simp) hp]
      rfl
    · rw [List.filter_cons_of_pos hp, List.filter_nil, chainValue_concat, ih]

@[simp] theorem close_value (v : Version) : (close ts v).value = v.value := by
  unfold close
  split_ifs <;> rfl

@[simp] theorem close_createdAt (v : Version) : (close ts v).createdAt = v.createdAt := by
  unfold close
  split_ifs <;> rfl

theorem close_deletedAt (v : Version) : (close ts v).deletedAt = some (v.deletedAt.getD ts) := by
  unfold close
  cases hd : v.deletedAt <;> simp [hd]

/-- The newest version is closed: earlier snapshots do not notice, and from then on nothing is
    visible. -/
theorem Reads.close (h : Reads low now val chain) (hts : ts.val = now + 1) :
    (∀ s : U64, s.val ≤ now → chainValue (chain.modifyLast (close ts)) s = chainValue chain s) ∧
    (∀ v ∈ chain.modifyLast (Mvcc.close ts), v.createdAt.val ≤ now ∧
      ∃ d, v.deletedAt = some d ∧ d ≤ ts) := by
  induction chain using List.reverseRecOn with
  | nil => exact ⟨fun s _ => rfl, fun v hv => (List.not_mem_nil hv).elim⟩
  | append_singleton c v _ =>
    rw [List.modifyLast_concat]
    have hclosed : ∀ w ∈ c, w.deletedAt ≠ none := by simpa using h.closed
    refine ⟨fun s hs => ?_, fun w hw => ?_⟩
    · rw [chainValue_concat, chainValue_concat, close_value]
      have : (Mvcc.close ts v).visibleAt s = v.visibleAt s := by
        rw [Bool.eq_iff_iff, visibleAt_iff, visibleAt_iff, close_createdAt, close_deletedAt]
        rcases v.deletedAt with _ | d
        · have hlt : s < ts := Fin.lt_def.2 (by omega)
          simp [hlt]
        · simp
      rw [this]
    · rcases List.mem_append.1 hw with hw | hw
      · obtain ⟨h1, h2⟩ := h.old w (by simp [hw])
        obtain ⟨d, hd⟩ := Option.ne_none_iff_exists'.1 (hclosed w hw)
        exact ⟨h1, d, hd, Fin.le_def.2 (by have := h2 d hd; omega)⟩
      · rw [List.mem_singleton.1 hw]
        obtain ⟨h1, h2⟩ := h.old v (by simp)
        refine ⟨by simpa using h1, _, close_deletedAt v, ?_⟩
        rcases hd : v.deletedAt with _ | d
        · simp
        · exact Fin.le_def.2 (by have := h2 d hd; simp; omega)

/-- **A commit that writes the key** adds a snapshot at which it shows what was written. -/
theorem Reads.applyWrite {val' : ℕ → Option String} {w : Option String}
    (h : Reads low now val chain) (hts : ts.val = now + 1) (hold : ∀ s ≤ now, val' s = val s)
    (hnew : val' (now + 1) = w) : Reads low (now + 1) val' (applyWrite ts w chain) := by
  obtain ⟨hshow, hclose⟩ := h.close hts
  have hnone : chainValue (chain.modifyLast (Mvcc.close ts)) ts = none := by
    refine chainValue_eq_none fun v hv => ?_
    obtain ⟨-, d, hd, hle⟩ := hclose v hv
    rw [Bool.eq_false_iff, Ne, visibleAt_iff]
    rintro ⟨-, hvis⟩
    exact absurd (hvis d hd) (not_lt.2 hle)
  have hold' : ∀ v ∈ chain.modifyLast (Mvcc.close ts), v.createdAt.val ≤ now + 1 ∧
      ∀ d, v.deletedAt = some d → d.val ≤ now + 1 := by
    intro v hv
    obtain ⟨h1, d, hd, hle⟩ := hclose v hv
    refine ⟨by omega, fun d' hd' => ?_⟩
    rw [hd] at hd'
    cases hd'
    rw [← hts]
    exact hle
  cases w with
  | none =>
    refine ⟨fun s h1 h2 => ?_, hold', fun v hv => ?_⟩
    · rcases Nat.lt_or_ge now s.val with hs | hs
      · obtain rfl : s = ts := Fin.ext (by omega)
        rw [hts, hnew]
        exact hnone
      · rw [hold s.val hs, ← h.shows s h1 hs]
        exact hshow s hs
    · obtain ⟨-, d, hd, -⟩ := hclose v (List.mem_of_mem_dropLast hv)
      rw [hd]
      simp
  | some x =>
    refine ⟨fun s h1 h2 => ?_, fun v hv => ?_, fun v hv => ?_⟩
    · simp only [Mvcc.applyWrite]
      rw [chainValue_concat]
      rcases Nat.lt_or_ge now s.val with hs | hs
      · obtain rfl : s = ts := Fin.ext (by omega)
        rw [if_pos (by simp [visibleAt_iff]), hts, hnew]
      · have hlt : s < ts := Fin.lt_def.2 (by omega)
        rw [if_neg (by simp [visibleAt_iff, hlt]), hold s.val hs, ← h.shows s h1 hs]
        exact hshow s hs
    · rcases List.mem_append.1 hv with hv | hv
      · exact hold' v hv
      · rw [List.mem_singleton.1 hv]
        simp [hts]
    · simp only [Mvcc.applyWrite, List.dropLast_concat] at hv
      obtain ⟨-, d, hd, -⟩ := hclose v hv
      rw [hd]
      simp

/-- A commit that does not write the key. -/
theorem Reads.skip {val' : ℕ → Option String} (h : Reads low now val chain) (hlow : low ≤ now)
    (hnow : now + 1 < 2 ^ 64) (hold : ∀ s ≤ now, val' s = val s) (hnew : val' (now + 1) = val now) :
    Reads low (now + 1) val' chain := by
  refine ⟨fun s h1 h2 => ?_, fun v hv => ?_, h.closed⟩
  · rcases Nat.lt_or_ge now s.val with hs | hs
    · have hs : s.val = now + 1 := by omega
      obtain ⟨s', hs'⟩ : ∃ s' : U64, s'.val = now := ⟨⟨now, by omega⟩, rfl⟩
      rw [hs, hnew, ← hs', ← h.shows s' (by omega) (by omega)]
      refine chainValue_congr fun v hv => ?_
      obtain ⟨h3, h4⟩ := h.old v hv
      rw [Bool.eq_iff_iff, visibleAt_iff, visibleAt_iff]
      have hc : v.createdAt ≤ s ∧ v.createdAt ≤ s' :=
        ⟨Fin.le_def.2 (by omega), Fin.le_def.2 (by omega)⟩
      have hd : ∀ d, v.deletedAt = some d → ¬ s < d ∧ ¬ s' < d := fun d hd =>
        ⟨fun hlt => by have := h4 d hd; have := Fin.lt_def.1 hlt; omega,
          fun hlt => by have := h4 d hd; have := Fin.lt_def.1 hlt; omega⟩
      exact ⟨fun ⟨_, h5⟩ => ⟨hc.2, fun d hd' => absurd (h5 d hd') (hd d hd').1⟩,
        fun ⟨_, h5⟩ => ⟨hc.1, fun d hd' => absurd (h5 d hd') (hd d hd').2⟩⟩
    · rw [hold s.val hs]
      exact h.shows s h1 hs
  · obtain ⟨h1, h2⟩ := h.old v hv
    exact ⟨by omega, fun d hd => by have := h2 d hd; omega⟩

/-- **A collection** keeps what is shown at the snapshots from just below its watermark on. -/
theorem Reads.collect (h : Reads low now val chain) (watermark : U64) :
    Reads (max low (watermark.val - 1)) now val (chain.filter fun v => v.kept watermark) := by
  refine ⟨fun s h1 h2 => ?_, fun v hv => h.old v (List.mem_of_mem_filter hv), fun v hv => ?_⟩
  · rw [← h.shows s (by omega) h2]
    refine chainValue_filter fun v _ hv => ?_
    unfold Version.kept at hv
    rw [Bool.eq_false_iff, Ne, visibleAt_iff]
    rintro ⟨-, hvis⟩
    rcases hd : v.deletedAt with _ | d
    · simp [hd] at hv
    · simp [hd] at hv
      have h3 := Fin.lt_def.1 (hvis d hd)
      have h4 := Fin.lt_def.1 hv
      omega
  · induction chain using List.reverseRecOn with
    | nil => simp at hv
    | append_singleton c w _ =>
      have hclosed : ∀ v ∈ c, v.deletedAt ≠ none := by simpa using h.closed
      rw [List.filter_append] at hv
      refine hclosed v ?_
      rcases hk : w.kept watermark with _ | _
      · rw [List.filter_cons_of_neg (by simp [hk]), List.filter_nil, List.append_nil] at hv
        exact List.mem_of_mem_filter (List.mem_of_mem_dropLast hv)
      · rw [List.filter_cons_of_pos hk, List.filter_nil, List.dropLast_concat] at hv
        exact List.mem_of_mem_filter hv

end Chain

/-! ## Version maps -/

/-- The value of a key after the given commits. -/
def valueAfter (commits : List Writes) (key : String) : Option String :=
  commits.foldl (fun value writes => (writes.lookup key).getD value) none

/-- The chain of a key. -/
def chainOf (versions : Versions) (key : String) : List Version := (versions.lookup key).getD []

/-- The map shows the state after the first `s` commits at every snapshot `s` from `low` on. -/
structure MapReads (low : ℕ) (commits : List Writes) (versions : Versions) : Prop where
  sorted : SortedKeys versions
  reads : ∀ key, Reads low commits.length (fun s => valueAfter (commits.take s) key)
    (chainOf versions key)

section Map
variable {low : ℕ} {commits : List Writes} {versions : Versions} {ts : U64}

theorem visibleValue_eq (versions : Versions) (key : String) (s : U64) :
    visibleValue versions key s = chainValue (chainOf versions key) s := by
  unfold visibleValue chainOf
  cases versions.lookup key <;> rfl

theorem MapReads.visibleValue (h : MapReads low commits versions) {s : U64} (hlow : low ≤ s.val)
    (hs : s.val ≤ commits.length) (key : String) :
    visibleValue versions key s = valueAfter (commits.take s.val) key := by
  rw [visibleValue_eq]
  exact (h.reads key).shows s hlow hs

theorem mapReads_nil : MapReads 0 [] [] :=
  ⟨List.Pairwise.nil, fun _ => reads_nil fun _ _ _ => by simp [valueAfter]⟩

theorem chainOf_insertEntry (key key' : String) (chain : List Version) :
    chainOf (insertEntry key chain versions) key' = if key' = key then chain else chainOf versions key' := by
  unfold chainOf
  rw [lookup_insertEntry]
  split_ifs <;> rfl

/-- The chains after a commit: those of the written keys have changed. -/
theorem chainOf_applyVersions {writes : Writes} (hw : SortedKeys writes) (key : String) :
    chainOf (applyVersions versions writes ts) key =
      match writes.lookup key with
      | some w => applyWrite ts w (chainOf versions key)
      | none => chainOf versions key := by
  induction writes generalizing versions with
  | nil => rfl
  | cons e writes ih =>
    obtain ⟨hlt, hw'⟩ := sortedKeys_cons.1 hw
    rw [applyVersions, List.foldl_cons]
    refine (ih hw').trans ?_
    rw [chainOf_insertEntry, lookup_cons_if]
    by_cases hk : key = e.1
    · subst hk
      have hnone : writes.lookup e.1 = none :=
        lookup_none_iff.2 fun e' he' => (hlt e' he').ne'
      simp [hnone, chainOf]
    · simp [hk]

theorem sortedKeys_applyVersions {writes : Writes} (h : SortedKeys versions) :
    SortedKeys (applyVersions versions writes ts) := by
  induction writes generalizing versions with
  | nil => exact h
  | cons e writes ih => exact ih (sortedKeys_insertEntry h)

theorem valueAfter_concat (commits : List Writes) (writes : Writes) (key : String) :
    valueAfter (commits ++ [writes]) key = (writes.lookup key).getD (valueAfter commits key) := by
  simp [valueAfter]

/-- **A commit** adds the state with its writes to what the map shows. -/
theorem MapReads.applyVersions {writes : Writes} (h : MapReads low commits versions)
    (hlow : low ≤ commits.length) (hw : SortedKeys writes) (hts : ts.val = commits.length + 1) :
    MapReads low (commits ++ [writes]) (applyVersions versions writes ts) := by
  refine ⟨sortedKeys_applyVersions h.sorted, fun key => ?_⟩
  rw [List.length_append, List.length_singleton, chainOf_applyVersions hw]
  have hold : ∀ s ≤ commits.length,
      valueAfter ((commits ++ [writes]).take s) key = valueAfter (commits.take s) key := by
    intro s hs
    rw [List.take_append_of_le_length hs]
  have hnew : valueAfter ((commits ++ [writes]).take (commits.length + 1)) key =
      (writes.lookup key).getD (valueAfter commits key) := by
    rw [List.take_of_length_le (by simp), valueAfter_concat]
  rcases hl : writes.lookup key with _ | w
  · refine (h.reads key).skip hlow (by have := ts.isLt; omega) hold ?_
    rw [hnew, hl, List.take_length]
    rfl
  · exact (h.reads key).applyWrite hts hold (by rw [hnew, hl]; rfl)

theorem retainVersions_cons (watermark : U64) (e : String × List Version) :
    retainVersions watermark (e :: versions) =
      if (e.2.filter fun v => v.kept watermark) = [] then retainVersions watermark versions
      else (e.1, e.2.filter fun v => v.kept watermark) :: retainVersions watermark versions := by
  rw [retainVersions, List.map_cons, List.filter_cons]
  by_cases hc : (e.2.filter fun v => v.kept watermark) = []
  · rw [if_pos hc, hc]; rfl
  · rw [if_neg hc, if_pos (by rw [List.isEmpty_eq_false_iff.2 hc]; rfl)]; rfl

theorem chainOf_retainVersions (h : SortedKeys versions) (watermark : U64) (key : String) :
    chainOf (retainVersions watermark versions) key =
      (chainOf versions key).filter fun v => v.kept watermark := by
  induction versions with
  | nil => rfl
  | cons e versions ih =>
    obtain ⟨hlt, h'⟩ := sortedKeys_cons.1 h
    have ih := ih h'
    unfold chainOf at ih ⊢
    rw [retainVersions_cons, lookup_cons_if]
    by_cases hk : key = e.1
    · subst hk
      have hnone : (retainVersions watermark versions).lookup e.1 = none := by
        refine lookup_none_iff.2 fun e' he' => ?_
        obtain ⟨e₀, he₀, rfl⟩ := List.mem_map.1 (List.mem_of_mem_filter he')
        exact (hlt e₀ he₀).ne'
      rw [if_pos rfl, Option.getD_some]
      split_ifs with hc
      · rw [hnone, hc]; rfl
      · rw [lookup_cons_if, if_pos rfl]; rfl
    · rw [if_neg hk, ← ih]
      split_ifs with hc
      · rfl
      · rw [lookup_cons_if, if_neg hk]

/-- **A collection** keeps the snapshots from just below its watermark on. -/
theorem MapReads.retainVersions (h : MapReads low commits versions) (watermark : U64) :
    MapReads (max low (watermark.val - 1)) commits (retainVersions watermark versions) := by
  refine ⟨List.Pairwise.filter _ ?_, fun key => ?_⟩
  · exact List.pairwise_map.2 h.sorted
  · rw [chainOf_retainVersions h.sorted]
    exact (h.reads key).collect watermark

end Map

end Mvcc

end NutDb
