/-
  The log file of a running and of a crashed program.

  `Logs f ps qs`: the file has the records `ps`, which are durable, and behind
  them the records `qs`, which a crash may cut anywhere.  `Leaves f ps`: what a
  crash has left, the records `ps` and perhaps a torn one.  Opening the log
  goes from the second to the first.
-/
import NutDb.Wal
import NutDb.Lib.File

namespace NutDb

open Lib

namespace Wal

/-- A log file of durable records and of records that are not synced yet. -/
structure Logs (f : File) (ps qs : List Bytes) : Prop where
  fits : ∀ p ∈ ps ++ qs, Fits p
  bytes : f.bytes = frames (ps ++ qs)
  left : ∀ c ∈ f.left, frames ps <+: c ∧ c <+: frames (ps ++ qs)

/-- A durable log file, or none, with whole records and perhaps a torn one behind them. -/
structure Leaves (f : Option File) (ps : List Bytes) : Prop where
  fits : ∀ p ∈ ps, Fits p
  settled : ∀ g, f = some g → g = File.settled g.bytes
  bytes : ∃ tail, ¬ StartsWithFrame tail ∧ (f.map File.bytes).getD [] = frames ps ++ tail

section Logs
variable {f : File} {ps qs : List Bytes} {p : Bytes}

theorem Logs.append (h : Logs f ps qs) (hp : Fits p) :
    Logs ((FileOp.append (frame p)).run f) ps (qs ++ [p]) := by
  have hb : frames (ps ++ (qs ++ [p])) = f.bytes ++ frame p := by
    rw [h.bytes]; simp
  refine ⟨fun q hq => ?_, hb.symm, fun c hc => ?_⟩
  · rw [← List.append_assoc] at hq
    rcases List.mem_append.1 hq with hq | hq
    · exact h.fits q hq
    · rw [List.mem_singleton.1 hq]; exact hp
  · rw [hb]
    rcases hc with hc | ⟨h1, h2⟩
    · exact ⟨(h.left c hc).1, (h.left c hc).2.trans (by rw [← h.bytes]; exact List.prefix_append _ _)⟩
    · refine ⟨List.IsPrefix.trans ?_ h1, h2⟩
      rw [h.bytes, frames_append]
      exact List.prefix_append _ _

theorem Logs.sync (h : Logs f ps qs) : Logs (FileOp.sync.run f) (ps ++ qs) [] := by
  refine ⟨by simpa using h.fits, by simpa [FileOp.run, File.settled] using h.bytes, fun c hc => ?_⟩
  rw [List.append_nil, ← h.bytes]
  simp only [FileOp.run, File.settled, Set.mem_singleton_iff] at hc
  rw [hc]
  exact ⟨List.prefix_refl _, List.prefix_refl _⟩

/-- **A crash** keeps the durable records and some of the others. -/
theorem Logs.crashed (h : Logs f ps qs) {f' : Option File} (hc : CrashedFile (some f) f') :
    ∃ qs₁ qs₂, qs = qs₁ ++ qs₂ ∧ Leaves f' (ps ++ qs₁) := by
  obtain ⟨c, hcl, rfl⟩ := hc
  obtain ⟨hlo, hhi⟩ := h.left c hcl
  obtain ⟨qs₁, qs₂, t, hq, hb, ht, -⟩ := replay_cut h.fits hlo hhi
  refine ⟨qs₁, qs₂, hq, fun p hp => h.fits p ?_, ?_, t, ht, by simpa [File.settled] using hb⟩
  · rw [hq]
    rcases List.mem_append.1 hp with hp | hp <;> simp [hp]
  · intro g hg
    cases hg
    rfl

end Logs

/-! ## Opening -/

/-- The operations that repair a log (`Wal::truncate_path` if it is torn) and open it. -/
def openOps {N : Type} (n : N) (replay : ReplayResult) : List (DiskOp N) :=
  (if replay.truncated then [.file n (.setLen replay.validBytes), .file n .sync] else []) ++ [.create n]

section Open
variable {N : Type} [DecidableEq N] {d : Disk N} {n : N} {ps : List Bytes}

theorem Leaves.replayPath {f : Option File} (h : Leaves f ps) : ∃ tail, ¬ StartsWithFrame tail ∧
    (f.map File.bytes).getD [] = frames ps ++ tail ∧
    replayPath (f.map File.bytes) = ⟨ps, decide (tail ≠ []), (frames ps).length⟩ := by
  obtain ⟨tail, ht, hb⟩ := h.bytes
  refine ⟨tail, ht, hb, ?_⟩
  rcases f with _ | g
  · simp only [Option.map_none, Option.getD_none] at hb
    obtain ⟨h1, rfl⟩ := List.append_eq_nil_iff.1 hb.symm
    rcases ps with _ | ⟨p, ps⟩
    · rfl
    · simp only [frames_cons] at h1
      have := congrArg List.length h1
      simp [HEADER_LEN] at this
  · simp only [Option.map_some, Option.getD_some] at hb
    rw [Option.map_some, Wal.replayPath, hb, replay_eq h.fits ht]

theorem Leaves.records {f : Option File} (h : Leaves f ps) :
    (Wal.replayPath (f.map File.bytes)).records = ps := by
  obtain ⟨tail, -, -, hr⟩ := h.replayPath
  rw [hr]

theorem logs_settled (hps : ∀ p ∈ ps, Fits p) : Logs (File.settled (frames ps)) ps [] := by
  refine ⟨by simpa using hps, by simp [File.settled], fun c hc => ?_⟩
  simp only [File.settled, Set.mem_singleton_iff] at hc
  rw [hc, List.append_nil]
  exact ⟨List.prefix_refl _, List.prefix_refl _⟩

theorem Leaves.crashed {f f' : Option File} (h : Leaves f ps) (hc : CrashedFile f f') :
    Leaves f' ps := by
  rcases f with _ | g
  · rw [show f' = none from hc]; exact h
  · obtain ⟨c, hcl, rfl⟩ := hc
    have hg := h.settled g rfl
    rw [hg] at hcl
    rw [show c = g.bytes from hcl, ← hg]
    exact h

theorem leaves_settled (hps : ∀ p ∈ ps, Fits p) : Leaves (some (File.settled (frames ps))) ps :=
  ⟨hps, fun g hg => by cases hg; rfl, [], not_startsWithFrame_nil, by simp [File.settled]⟩

/-- **Opening** a log leaves its whole records, also if it crashes. -/
theorem Leaves.openOps (h : Leaves (d n) ps) :
    (∃ f, d.runOps (openOps n (Wal.replayPath ((d n).map File.bytes))) n = some f ∧ Logs f ps []) ∧
    ∀ k d', (d.runOps ((Wal.openOps n (Wal.replayPath ((d n).map File.bytes))).take k)).Crashed d' →
      Leaves (d' n) ps := by
  obtain ⟨tail, ht, hb, hr⟩ := h.replayPath
  rw [hr]
  have hempty : ∀ e : Disk N, e n = some (File.settled (frames ps)) → ∀ k,
      e.runOps (([DiskOp.create n] : List (DiskOp N)).take k) n = some (File.settled (frames ps)) := by
    intro e he k
    rcases k with _ | k
    · exact he
    · simp [DiskOp.run, he]
  by_cases htail : tail = []
  · subst htail
    have hops : Wal.openOps n ⟨ps, decide (([] : Bytes) ≠ []), (frames ps).length⟩ = [.create n] := rfl
    rw [hops]
    have hself : (DiskOp.run (.create n) d) n = some (File.settled (frames ps)) := by
      simp only [DiskOp.run, Disk.set_self]
      rcases hd : d n with _ | g
      · rw [hd] at hb
        simp only [Option.map_none, Option.getD_none, List.append_nil] at hb
        rw [← hb]; rfl
      · rw [hd] at hb
        simp only [Option.map_some, Option.getD_some, List.append_nil] at hb
        rw [← hb]
        exact congrArg some (h.settled g hd)
    refine ⟨⟨_, hself, logs_settled h.fits⟩, fun k d' hc => ?_⟩
    rcases k with _ | k
    · exact h.crashed (hc n)
    · have hcn := hc n
      rw [List.take_succ_cons, List.take_nil, Disk.runOps_cons, Disk.runOps_nil, hself] at hcn
      exact (leaves_settled h.fits).crashed hcn
  · -- a torn tail means that there is a file
    obtain ⟨g, hd, hg⟩ : ∃ g, d n = some (File.settled g) ∧ g = frames ps ++ tail := by
      rcases hd : d n with _ | g
      · rw [hd] at hb
        simp only [Option.map_none, Option.getD_none] at hb
        exact absurd (List.append_eq_nil_iff.1 hb.symm).2 htail
      · rw [hd] at hb
        exact ⟨g.bytes, congrArg some (h.settled g hd), by simpa using hb⟩
    have hcut : setLen g (frames ps).length = frames ps := by
      rw [hg, setLen_of_le (by simp), List.take_left' rfl]
    have hops : Wal.openOps n ⟨ps, decide (tail ≠ []), (frames ps).length⟩ =
        [.file n (.setLen (frames ps).length), .file n .sync] ++ [.create n] := by
      simp [Wal.openOps, htail]
    have h1 : DiskOp.run (.file n (.setLen (frames ps).length)) d n =
        some ⟨frames ps, {g} ∪ {frames ps}⟩ := by
      simp [DiskOp.run, hd, FileOp.run, File.settled, hcut]
    have h2 : d.runOps [.file n (.setLen (frames ps).length), .file n .sync] n =
        some (File.settled (frames ps)) := by
      rw [Disk.runOps_cons, Disk.runOps_cons, Disk.runOps_nil, DiskOp.run, Disk.set_self, h1]
      rfl
    rw [hops]
    refine ⟨⟨_, ?_, logs_settled h.fits⟩, fun k d' hc => ?_⟩
    · rw [Disk.runOps_append]
      exact hempty _ h2 1
    · have hcn := hc n
      rcases k with _ | _ | k
      · exact h.crashed hcn
      · -- the crash keeps the old length or the new one
        simp only [List.cons_append, List.take_succ_cons, List.take_zero, Disk.runOps_cons,
          Disk.runOps_nil] at hcn
        rw [h1] at hcn
        obtain ⟨c, hcl, hdw⟩ := hcn
        rw [hdw]
        rcases hcl with rfl | rfl
        · rw [← hd]; exact h
        · exact leaves_settled h.fits
      · rw [List.take_append, List.take_of_length_le (by simp), Disk.runOps_append,
          hempty _ h2] at hcn
        exact (leaves_settled h.fits).crashed hcn

end Open

end Wal

end NutDb
