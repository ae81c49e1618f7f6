/-
  What a collection leaves.

  The watermark is the oldest snapshot in use.  A version is left if and only if
  it is visible at some snapshot from just below the watermark on, so a second
  collection finds nothing; and without transactions only the current version
  of each key is left (`gc_exact`).
-/
import NutDb.Mvcc.Chains

namespace NutDb

open Lib

namespace Mvcc

/-- The number of versions. -/
def total (versions : Versions) : ℕ := (versions.map fun e => e.2.length).sum

section Collect
variable {versions : Versions} {now watermark : U64} {chain : List Version} {v : Version} {key : String}

theorem kept_iff : v.kept watermark = true ↔ ∀ d, v.deletedAt = some d → watermark ≤ d := by
  unfold Version.kept
  cases v.deletedAt <;> simp

/-- **A version is kept** if and only if a snapshot from just below the watermark on sees it. -/
theorem kept_iff_visible (h : ∀ d, v.deletedAt = some d → v.createdAt < d) :
    v.kept watermark = true ↔ ∃ s : U64, watermark.val ≤ s.val + 1 ∧ v.visibleAt s = true := by
  rw [kept_iff]
  constructor
  · intro hkept
    cases hd : v.deletedAt with
    | none =>
      refine ⟨Fin.last _, ?_, visibleAt_iff.2 ⟨Fin.le_last _, fun d hd' => ?_⟩⟩
      · exact (Fin.le_def.1 (Fin.le_last watermark)).trans (Nat.le_succ _)
      · cases hd.symm.trans hd'
    | some d =>
      -- the last snapshot before it was deleted
      have hlt := Fin.lt_def.1 (h d hd)
      have hle := Fin.le_def.1 (hkept d hd)
      have hbound := d.isLt
      refine ⟨⟨d.val - 1, by omega⟩, ?_, visibleAt_iff.2 ⟨Fin.le_def.2 ?_, fun d' hd' => ?_⟩⟩
      · show watermark.val ≤ d.val - 1 + 1
        omega
      · show v.createdAt.val ≤ d.val - 1
        omega
      · cases hd.symm.trans hd'
        refine Fin.lt_def.2 ?_
        show d.val - 1 < d.val
        omega
  · rintro ⟨s, hle, hvis⟩ d hd
    have hlt := Fin.lt_def.1 ((visibleAt_iff.1 hvis).2 d hd)
    exact Fin.le_def.2 (by omega)

theorem retainVersions_ne_nil : ∀ e ∈ retainVersions watermark versions, e.2 ≠ [] := by
  intro e he hnil
  have hkept := (List.mem_filter.1 he).2
  rw [hnil] at hkept
  cases hkept

/-- The versions that are kept and those that are not are all. -/
theorem total_retainVersions (watermark : U64) (versions : Versions) :
    (versions.map fun e => e.2.length - (e.2.filter fun v => v.kept watermark).length).sum +
      total (retainVersions watermark versions) = total versions := by
  induction versions with
  | nil => rfl
  | cons e versions ih =>
    have hle : (e.2.filter fun v => v.kept watermark).length ≤ e.2.length := List.length_filter_le _ _
    have hcons : total (e :: versions) = e.2.length + total versions := rfl
    rw [retainVersions_cons, hcons, List.map_cons, List.sum_cons, ← ih]
    split_ifs with hnil
    · rw [hnil, List.length_nil]
      omega
    · have hkept : total ((e.1, e.2.filter fun v => v.kept watermark) :: retainVersions watermark versions) =
          (e.2.filter fun v => v.kept watermark).length + total (retainVersions watermark versions) := rfl
      rw [hkept]
      omega

/-- Only kept versions are left. -/
theorem kept_of_mem {e : String × List Version} (he : e ∈ retainVersions watermark versions) :
    ∀ v ∈ e.2, v.kept watermark = true := by
  obtain ⟨e', -, rfl⟩ := List.mem_map.1 (List.mem_of_mem_filter he)
  exact fun v hv => (List.mem_filter.1 hv).2

/-- **A second collection** finds nothing. -/
theorem retainVersions_idem (watermark : U64) (versions : Versions) :
    retainVersions watermark (retainVersions watermark versions) = retainVersions watermark versions := by
  have hmap : (retainVersions watermark versions).map (fun e => (e.1, e.2.filter fun v => v.kept watermark)) =
      retainVersions watermark versions := by
    conv_rhs => rw [← List.map_id (retainVersions watermark versions)]
    refine List.map_congr_left fun e he => ?_
    rw [List.filter_eq_self.2 (kept_of_mem he)]
    rfl
  conv_lhs => rw [retainVersions, hmap]
  refine List.filter_eq_self.2 fun e he => ?_
  rw [List.isEmpty_eq_false_iff.2 (retainVersions_ne_nil e he)]
  rfl

/-- **Only the current version** is kept by a watermark after every deletion. -/
theorem filter_kept_eq (h : Version.Line now chain) (hlt : now < watermark) :
    (chain.filter fun v => v.kept watermark).map (fun v => (v.value, v.deletedAt)) =
      ((chainValue chain now).map fun value => (value, none)).toList := by
  have hopen : ∀ v ∈ chain, v.kept watermark = true ↔ v.deletedAt = none := by
    intro v hv
    rw [kept_iff]
    constructor
    · intro hkept
      refine Option.eq_none_iff_forall_ne_some.2 fun d hd => ?_
      exact absurd ((hkept d hd).trans ((h.old v hv).2 d hd)) (not_le.2 hlt)
    · intro hnone d hd
      cases hnone.symm.trans hd
  have hvisible : ∀ v ∈ chain, v.visibleAt now = v.kept watermark := by
    intro v hv
    rw [Bool.eq_iff_iff, hopen v hv, visibleAt_iff]
    constructor
    · rintro ⟨-, hvis⟩
      refine Option.eq_none_iff_forall_ne_some.2 fun d hd => ?_
      exact absurd (hvis d hd) (not_lt.2 ((h.old v hv).2 d hd))
    · intro hnone
      refine ⟨(h.old v hv).1, fun d hd => ?_⟩
      cases hnone.symm.trans hd
  have hone : (chain.filter fun v => v.visibleAt now).length ≤ 1 :=
    length_covers_le_one h fun v => covers_of_visibleAt
  rw [h.chainValue (List.Perm.refl _), ← List.head?_filter, ← List.filter_congr hvisible]
  match hf : chain.filter fun v => v.visibleAt now with
  | [] =>
    rw [hf]
    rfl
  | [v] =>
    have hv : v ∈ chain.filter fun v => v.visibleAt now := hf ▸ List.mem_singleton_self v
    obtain ⟨hmem, hvis⟩ := List.mem_filter.1 hv
    rw [hvisible v hmem, hopen v hmem] at hvis
    rw [hf, List.map_singleton, hvis]
    rfl
  | v :: w :: rest =>
    rw [hf] at hone
    exact absurd hone (by simp)

end Collect

/-- **A collection is exact**: in every state that is reached from any log, it leaves the versions that are
    visible at a snapshot from just below the watermark on, and no empty chain; it reports how many
    it removed; another one right after it removes nothing; and without transactions, what is left
    is the current version of every key that has a value. -/
theorem gc_exact {d : Disk Unit} {steps : List (System × (Label ⊕ FaultLabel))} {sys : System} {inner : Inner}
    (hrun : Trace AnyStep ⟨d, none, noTxns⟩ steps sys) (hs : sys.store = some inner) :
    (∀ key v, v ∈ chainOf inner.gc.2.versions key ↔ v ∈ chainOf inner.versions key ∧
      ∃ s : U64, inner.watermark.val ≤ s.val + 1 ∧ v.visibleAt s = true) ∧
    (∀ e ∈ inner.gc.2.versions, e.2 ≠ []) ∧
    inner.gc.1.versionsReclaimed + total inner.gc.2.versions = total inner.versions ∧
    inner.gc.2.gc = (⟨inner.watermark, 0⟩, inner.gc.2) ∧
    (inner.active = [] → inner.commitTs.val + 1 < 2 ^ 64 → ∀ key,
      (chainOf inner.gc.2.versions key).map (fun v => (v.value, v.deletedAt)) =
        ((inner.getAt key inner.commitTs).map fun value => (value, none)).toList) := by
  have hlines := (hrun.inv (I := Chained) Chained.step (chained_idle d)).lines inner hs
  refine ⟨fun key v => ?_, retainVersions_ne_nil, total_retainVersions _ _, ?_, fun hactive hts key => ?_⟩
  · simp only [Inner.gc, chainOf_retainVersions hlines.sorted, List.mem_filter]
    refine and_congr_right fun hv => kept_iff_visible ((hlines.line key).proper v hv)
  · have hwatermark : inner.gc.2.watermark = inner.watermark := rfl
    have hreport : inner.gc.2.gc.1.versionsReclaimed = 0 := by
      refine List.sum_eq_zero fun n hn => ?_
      obtain ⟨e, he, rfl⟩ := List.mem_map.1 hn
      rw [hwatermark, List.filter_eq_self.2 (kept_of_mem he)]
      exact Nat.sub_self _
    have hversions : inner.gc.2.gc.2 = inner.gc.2 := by
      simp only [Inner.gc]
      rw [show Inner.watermark { inner with versions := retainVersions inner.watermark inner.versions } =
        inner.watermark from rfl, retainVersions_idem]
    refine Prod.ext ?_ hversions
    rw [← hreport]
    rfl
  · have hwatermark : inner.commitTs < inner.watermark := by
      obtain ⟨ts, hsucc⟩ : ∃ ts, inner.commitTs.checkedAdd 1 = some ts :=
        ⟨⟨inner.commitTs.val + 1, hts⟩, U64.checkedAdd_eq_some.2 rfl⟩
      have heq : inner.watermark = ts := by
        rw [Inner.watermark, hactive, hsucc]
        rfl
      rw [heq, Fin.lt_def, U64.checkedAdd_eq_some.1 hsucc]
      exact Nat.lt_succ_self _
    rw [Inner.getAt, visibleValue_eq, show inner.gc.2.versions = retainVersions inner.watermark inner.versions from rfl,
      chainOf_retainVersions hlines.sorted]
    exact filter_kept_eq (hlines.line key) hwatermark

/-- In the run in which a key is written twice, the first version goes. -/
theorem gc_exact_rewrite : ∃ steps sys inner, Trace AnyStep initial steps sys ∧ sys.store = some inner ∧
    inner.gc.1.versionsReclaimed + total inner.gc.2.versions = 2 ∧
    (chainOf inner.gc.2.versions "a").map (fun v => (v.value, v.deletedAt)) = [("2", none)] := by
  obtain ⟨steps, sys, inner, hrun, hs, rfl⟩ := rewrite_run
  obtain ⟨-, -, htotal, -, hcurrent⟩ := gc_exact hrun hs
  exact ⟨steps, sys, _, hrun, hs, htotal, hcurrent rfl (by decide) "a"⟩

end Mvcc

end NutDb
