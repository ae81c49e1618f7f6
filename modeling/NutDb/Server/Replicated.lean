/-
  The records of a cluster as staged replicas (`Lib.Staged`).

  A server takes a record when a `REPL` brings a newer one, and when it commits
  its own write.  It adopts records that others have chosen when it catches up and
  when it is told to commit.  So every change of a store is a change of the
  replicas that keeps them sound.
-/
import NutDb.Server.Cluster
import NutDb.Lib.Staged

namespace NutDb.Server

open Lib Cluster

/-- What a record says, apart from its version and whether it is committed. -/
abbrev Content := Bool × String

/-- The record as a record of the replicas. -/
def ReplicaValue.versioned (r : ReplicaValue) : Versioned Content :=
  ⟨r.version.val, r.committed, (r.tombstone, r.value)⟩

/-- The records that servers have taken. -/
abbrev Took := Set (U64 × String × ℕ × Content)

/-- The replicas that a cluster stands for. -/
def replicas (server : U64 → Server) (took : Took) : Replicas U64 String Content where
  record n k := (recordOf (server n).store k).map ReplicaValue.versioned
  took := took

/-- The store of a server holds records. -/
def Readable (m : Records) : Prop := Decodes m (recordOf m)

section Reading
variable {m m' : Records} {f : String → Option ReplicaValue} {key : String} {incoming : ReplicaValue}

theorem recordOf_eq (h : Decodes m f) : recordOf m = f := by
  funext key
  rw [recordOf, h.read key]

theorem Decodes.readable (h : Decodes m f) : Readable m := by
  rw [Readable, recordOf_eq h]
  exact h

/-- `merge` replaces an older record, or leaves the store as it is. -/
theorem merge_cases (h : Readable m) (hmerge : merge m key incoming = .ok m') : Readable m' ∧
    ((∀ current, recordOf m key = some current → replaces current incoming = true) ∧
        recordOf m' = Function.update (recordOf m) key (some incoming) ∨
      (∃ current, recordOf m key = some current ∧ replaces current incoming = false) ∧
        recordOf m' = recordOf m) := by
  have hm' := Decodes.merge h hmerge
  refine ⟨hm'.readable, ?_⟩
  rw [recordOf_eq hm']
  cases hcur : recordOf m key with
  | none => exact Or.inl ⟨fun _ hc => (nomatch hc), rfl⟩
  | some current =>
    rw [newer]
    cases hr : replaces current incoming with
    | true =>
      refine Or.inl ⟨fun current' hc => ?_, rfl⟩
      cases hc
      exact hr
    | false =>
      refine Or.inr ⟨⟨current, rfl, hr⟩, ?_⟩
      rw [if_neg Bool.false_ne_true, ← hcur, Function.update_eq_self]

end Reading

/-! ## Changes of a store -/

section Replicas
variable {ids : List U64} {server : U64 → Server} {took : Took} {n : U64} {s : Server} {key : String}
variable {record : ReplicaValue}

theorem version_replicas (server : U64 → Server) (took : Took) (n : U64) (key : String) :
    (replicas server took).version n key = (versionOf (server n).store key).val := by
  simp only [Replicas.version, replicas, versionOf]
  cases recordOf (server n).store key with
  | none => rfl
  | some r => rfl

theorem record_replicas (took : Took) {r : ReplicaValue} (h : recordOf (server n).store key = some r) :
    (replicas server took).record n key = some r.versioned := by
  simp only [replicas, h]
  rfl

/-- The replicas do not depend on the rest of a server. -/
theorem replicas_of_same (h : recordOf s.store = recordOf (server n).store) :
    replicas (Function.update server n s) took = replicas server took := by
  rw [replicas, replicas, Replicas.mk.injEq]
  refine ⟨?_, rfl⟩
  funext n' k
  by_cases hn : n' = n
  · rw [hn, Function.update_self, h]
  · rw [Function.update_of_ne hn]

theorem replicas_of_set (took : Took)
    (h : recordOf s.store = Function.update (recordOf (server n).store) key (some record)) :
    replicas (Function.update server n s) took = (replicas server took).adopt n key record.versioned := by
  rw [replicas, Replicas.adopt, Replicas.mk.injEq]
  refine ⟨?_, rfl⟩
  funext n' k
  by_cases hn : n' = n
  · subst hn
    rw [Function.update_self, Function.update_self, h]
    by_cases hk : k = key
    · rw [hk, Function.update_self, Function.update_self]
      rfl
    · rw [Function.update_of_ne hk, Function.update_of_ne hk]
      rfl
  · rw [Function.update_of_ne hn, Function.update_of_ne hn]
    rfl

theorem replicas_of_take (took : Took)
    (h : recordOf s.store = Function.update (recordOf (server n).store) key (some record)) :
    replicas (Function.update server n s)
        (insert (n, key, record.version.val, (record.tombstone, record.value)) took) =
      (replicas server took).take n key record.versioned := by
  rw [Replicas.take, ← replicas_of_set took h]
  rfl

/-- A change of a server: the replicas stay sound, and they grow. -/
structure Evolves (ids : List U64) (server : U64 → Server) (took : Took) (n : U64) (s : Server) (took' : Took) :
    Prop where
  readable : Readable s.store
  sound : Replicas.Sound ids.toFinset (replicas (Function.update server n s) took')
  grows : Replicas.Grows (replicas server took) (replicas (Function.update server n s) took')

/-- A server of which other things change. -/
theorem Evolves.of_same (hread : Readable s.store) (hsound : Replicas.Sound ids.toFinset (replicas server took))
    (h : recordOf s.store = recordOf (server n).store) : Evolves ids server took n s took := by
  refine ⟨hread, ?_, ?_⟩
  · rw [replicas_of_same h]
    exact hsound
  · rw [replicas_of_same h]
    exact .refl _

theorem Evolves.trans {s' : Server} {took' took'' : Took} (h : Evolves ids server took n s took')
    (h' : Evolves ids (Function.update server n s) took' n s' took'') : Evolves ids server took n s' took'' := by
  have hsound := h'.sound
  have hgrows := h'.grows
  rw [Function.update_idem] at hsound hgrows
  exact ⟨h'.readable, hsound, h.grows.trans hgrows⟩

/-- The version of the stored record, as `merge` compares it. -/
theorem version_le_of_replaces (took : Took) {incoming : ReplicaValue}
    (h : ∀ current, recordOf (server n).store key = some current → replaces current incoming = true) :
    (replicas server took).version n key ≤ incoming.versioned.version := by
  rw [version_replicas, versionOf]
  cases hcur : recordOf (server n).store key with
  | none => exact Nat.zero_le _
  | some current =>
    have hr := h current hcur
    simp only [replaces, Bool.or_eq_true, decide_eq_true_eq, Bool.and_eq_true, beq_iff_eq] at hr
    rcases hr with hr | ⟨⟨hr, -⟩, -⟩
    · exact Fin.le_def.1 hr.le
    · exact Fin.le_def.1 hr.ge

/-- **Catching up**: a server merges a record that others have chosen. -/
theorem evolves_adopt {m : Records} (hread : Readable (server n).store)
    (hsound : Replicas.Sound ids.toFinset (replicas server took)) (hcom : record.committed = true)
    (hchosen : Replicas.Chosen ids.toFinset (replicas server took) key record.version.val
      (record.tombstone, record.value)) (hstore : s.store = m)
    (hmerge : merge (server n).store key record = .ok m) : Evolves ids server took n s took := by
  subst hstore
  obtain ⟨hread', ⟨hnew, hset⟩ | ⟨-, hset⟩⟩ := merge_cases hread hmerge
  · have hver := version_le_of_replaces took hnew
    refine ⟨hread', ?_, ?_⟩
    · rw [replicas_of_set took hset]
      exact hsound.adopt hver hcom hchosen
    · rw [replicas_of_set took hset]
      exact .adopt hver hcom
  · exact .of_same hread' hsound hset

/-- A server merges the records of a dump, or the first of them. -/
theorem evolves_mergeAll {rows : List (String × ReplicaValue)} (hread : Readable (server n).store)
    (hsound : Replicas.Sound ids.toFinset (replicas server took))
    (hrows : ∀ k r, (k, r) ∈ rows → r.committed = true ∧
      Replicas.Chosen ids.toFinset (replicas server took) k r.version.val (r.tombstone, r.value))
    (hstore : s.store = (mergeAll (server n).store rows).1) : Evolves ids server took n s took := by
  induction rows generalizing server with
  | nil => exact .of_same (by rw [hstore]; exact hread) hsound (by rw [hstore]; rfl)
  | cons row rows ih =>
    obtain ⟨key, record⟩ := row
    rw [mergeAll] at hstore
    cases hmerge : merge (server n).store key record with
    | error e =>
      rw [hmerge] at hstore
      exact .of_same (by rw [hstore]; exact hread) hsound (by rw [hstore])
    | ok m =>
      rw [hmerge] at hstore
      obtain ⟨hcom, hchosen⟩ := hrows key record List.mem_cons_self
      have hone : Evolves ids server took n { s with store := m } took :=
        evolves_adopt hread hsound hcom hchosen rfl hmerge
      refine hone.trans (ih ?_ hone.sound ?_ ?_)
      · rw [Function.update_self]
        exact hone.readable
      · intro k r hr
        obtain ⟨hcom', hchosen'⟩ := hrows k r (List.mem_cons_of_mem _ hr)
        exact ⟨hcom', hchosen'.mono hone.grows.took⟩
      · rw [Function.update_self]
        exact hstore

/-- **Taking a record**: one that is newer than the stored one.  If it is committed, it has to be chosen now. -/
theorem evolves_take (record : ReplicaValue) {m : Records} (hread : Readable (server n).store)
    (hsound : Replicas.Sound ids.toFinset (replicas server took))
    (hver : (replicas server took).version n key < record.version.val)
    (hchosen : record.committed = true → Replicas.Chosen ids.toFinset
      ((replicas server took).take n key record.versioned) key record.version.val
        (record.tombstone, record.value)) (hstore : s.store = m)
    (hmerge : merge (server n).store key record = .ok m) :
    Evolves ids server took n s
      (insert (n, key, record.version.val, (record.tombstone, record.value)) took) ∧
      recordOf m key = some record := by
  subst hstore
  obtain ⟨hread', ⟨-, hset⟩ | ⟨⟨current, hcur, hold⟩, -⟩⟩ := merge_cases hread hmerge
  · refine ⟨⟨hread', ?_, ?_⟩, by rw [hset, Function.update_self]⟩
    · rw [replicas_of_take took hset]
      exact hsound.take hver hchosen
    · rw [replicas_of_take took hset]
      exact .take hver
  · -- a newer record is never turned down
    rw [version_replicas, versionOf, hcur] at hver
    have hlt : current.version < record.version := Fin.lt_def.2 hver
    simp only [replaces, Bool.or_eq_false_iff, decide_eq_false_iff_not] at hold
    exact absurd hlt hold.1

/-- A `REPL` is taken if it is newer, and otherwise changes nothing. -/
theorem evolves_stage {m : Records} (hread : Readable (server n).store)
    (hsound : Replicas.Sound ids.toFinset (replicas server took)) (hcom : record.committed = false)
    (hpos : 0 < record.version.val) (hstore : s.store = m)
    (hmerge : merge (server n).store key record = .ok m) :
    (replicas server took).version n key < record.version.val ∧ Evolves ids server took n s
        (insert (n, key, record.version.val, (record.tombstone, record.value)) took) ∨
      Evolves ids server took n s took ∧
        ∃ current, recordOf (server n).store key = some current ∧ record.version ≤ current.version := by
  by_cases hver : (replicas server took).version n key < record.version.val
  · refine Or.inl ⟨hver, (evolves_take record hread hsound hver (fun h => ?_) hstore hmerge).1⟩
    rw [hcom] at h
    cases h
  · subst hstore
    obtain ⟨hread', ⟨hnew, -⟩ | ⟨⟨current, hcur, hold⟩, hset⟩⟩ := merge_cases hread hmerge
    · rw [version_replicas, versionOf] at hver
      cases hcur : recordOf (server n).store key with
      | none =>
        rw [hcur] at hver
        exact absurd hpos hver
      | some current =>
        rw [hcur] at hver
        have hle : ¬ current.version < record.version := fun h => hver (Fin.lt_def.1 h)
        have hr := hnew current hcur
        simp only [replaces, hcom, Bool.and_false, Bool.false_and, Bool.or_false, decide_eq_true_eq] at hr
        exact absurd hr hle
    · refine Or.inr ⟨.of_same hread' hsound hset, current, hcur, ?_⟩
      rw [version_replicas, versionOf, hcur] at hver
      exact not_lt.1 fun h => hver (Fin.lt_def.1 h)

/-- **Committing**: a server marks the record of the version, which others have chosen. -/
theorem evolves_commit {m : Records} {version : U64} {content : Content} (hread : Readable (server n).store)
    (hsound : Replicas.Sound ids.toFinset (replicas server took))
    (hchosen : Replicas.Chosen ids.toFinset (replicas server took) key version.val content)
    (hbacks : Replicas.Backs ids.toFinset (replicas server took) n key version.val content)
    (hstore : s.store = m) (hcommit : commitRecord (server n).store key version = .ok m) :
    Evolves ids server took n s took ∧
      Replicas.Settled (replicas (Function.update server n s) took) n key version.val content := by
  subst hstore
  rcases Decodes.commitRecord hread hcommit with ⟨current, hcur, rfl, hm⟩ | ⟨hne, hm⟩
  · have hrec := record_replicas took hcur
    have hcontent : (current.tombstone, current.value) = content :=
      hsound.content_of_backs hchosen hbacks hrec rfl
    subst hcontent
    have hset := recordOf_eq hm
    have hver : (replicas server took).version n key ≤ current.version.val :=
      (Replicas.version_of_record hrec).le
    refine ⟨⟨hm.readable, ?_, ?_⟩, Or.inl ?_⟩
    · rw [replicas_of_set took hset]
      exact hsound.adopt hver rfl hchosen
    · rw [replicas_of_set took hset]
      exact .adopt hver rfl
    · rw [replicas_of_set took hset, Replicas.adopt_self]
      rfl
  · have hsame : recordOf s.store = recordOf (server n).store := by rw [hm]
    refine ⟨.of_same (by rw [hm]; exact hread) hsound hsame, Or.inr ?_⟩
    rw [replicas_of_same hsame]
    refine lt_of_le_of_ne hbacks.1 fun heq => ?_
    obtain ⟨n', -, htook, -⟩ := Majority.meet hchosen hchosen
    obtain ⟨r, hr, -⟩ := Replicas.record_of_reached (hsound.pos htook) hbacks.1
    rw [Replicas.version_of_record hr] at heq
    simp only [replicas, Option.map_eq_some_iff] at hr
    obtain ⟨current, hcur, rfl⟩ := hr
    exact hne current hcur (Fin.ext heq.symm)

end Replicas

end NutDb.Server
