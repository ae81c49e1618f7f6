/-
  Which stores can be checkpointed.

  A checkpoint succeeds exactly if the tree fits its pages.  `checkpoint_iff` says
  so of every store that was reached by acknowledged calls; a set of more than a
  page is acknowledged and cannot be checkpointed.
-/
import NutDb.StoreBatch
import NutDb.SnapshotFits

namespace NutDb

open Lib BTree

namespace Store

/-! ## Checkpoints of acknowledged stores -/

/-- A checkpoint does what it is for: it succeeds, the log is empty, and the page file has the map of
    the store. -/
def Checkpoints (s : Store) (d : Disk FileName) : Prop :=
  (s.checkpoint d).result = .ok () ∧ content (d.runOps (s.checkpoint d).ops) .wal = some [] ∧
    ∃ m, s.data.entries = .ok m ∧
      (∃ file, content (d.runOps (s.checkpoint d).ops) .pages = some file ∧ Loadable file m) ∧
      Recovers m (d.runOps (s.checkpoint d).ops)

/-- The steps of a run without failures: the store is opened, calls return, and the process may be
    killed between them. -/
def Acknowledged : Label → Prop
  | .opened | .called _ (.ok ()) | .crash => True
  | _ => False

section Acknowledged
variable {s : Store} {d : Disk FileName} {m : List (String × String)}

/-- The log accepts all records of an acknowledged batch. -/
theorem fits_of_applyBatch {cs : List Command} (h : (s.applyBatch cs).result = .ok ()) :
    ∀ c ∈ cs, Wal.Fits c.encode := by
  unfold applyBatch at h
  split_ifs at h
  · cases h
  · obtain ⟨cs₁, cs₂, hcs, hfits, -, ⟨rfl, -⟩ | ⟨c, cs', e, -, -, herr⟩⟩ := appendAll_spec cs
    · rw [hcs, List.append_nil]
      exact hfits
    · rcases hall : appendAll cs with ⟨ops, r⟩
      rw [hall] at herr h
      rw [show r = .error e from herr] at h
      cases h

theorem allowed_of_acknowledged {sys sys' : System} {l : Label} (hstep : Step sys l sys')
    (h : Acknowledged l) : Allowed sys l := by
  cases hstep with
  | opened => trivial
  | openFailed => exact h.elim
  | openCrash => exact h.elim
  | callCrash => exact h.elim
  | crash => trivial
  | @called d s call =>
    cases call with
    | set key value => trivial
    | delete key => trivial
    | checkpoint => trivial
    | applyBatch cs =>
      rintro ⟨-, c, cs', rfl, -, c', hc', hlong⟩
      rcases hr : (s.applyBatch (c :: cs')).result with e | u
      · simp only [Call.run, hr] at h
        exact h
      · exact hlong (fits_of_applyBatch hr c' (by simp [hc']))

theorem live_of_acknowledged {steps : List (System × Label)} (hrun : Run steps ⟨d, some s⟩)
    (hack : ∀ p ∈ steps, Acknowledged p.2) : ∃ m, Live s d m := by
  have hallowed : ∀ {steps : List (System × Label)} {sys : System}, Run steps sys →
      (∀ p ∈ steps, Acknowledged p.2) → ∀ p ∈ steps, Allowed p.1 p.2 := by
    intro steps sys hrun hack
    induction hrun with
    | start => simp
    | step _ hstep ih =>
      intro p hp
      rcases List.mem_cons.1 hp with rfl | hp
      · exact allowed_of_acknowledged hstep (hack _ (by simp))
      · exact ih (fun p hp => hack p (by simp [hp])) p hp
  obtain ⟨h, -, hinv⟩ := run_inv hrun (hallowed hrun hack)
  exact ⟨_, hinv⟩

theorem checkpoints_iff (hl : Live s d m) : Checkpoints s d ↔ s.data.FitsPages := by
  rw [← BTreeIndex.saveTemp_iff hl.data]
  constructor
  · rintro ⟨hok, -⟩
    rcases hsave : s.data.saveTemp.2 with e | u
    · rw [checkpoint_ops_error hsave] at hok
      cases hok
    · rfl
  · intro hsave
    have hafter := hl.backed.checkpoint hsave
    obtain ⟨hwal, hpages⟩ := hl.backed.checkpoint_files hsave
    refine ⟨by rw [checkpoint_ops_ok hsave], hwal, m, BTreeIndex.entries_spec hl.data, hpages, hafter.recovers⟩

end Acknowledged

/-- **Which stores can be checkpointed**: after any run in which all calls were acknowledged, a
    checkpoint succeeds, empties the log and leaves the map in the page file, if and only if every node
    of the tree fits a page, and the page file is not too large. -/
theorem checkpoint_iff {steps : List (System × Label)} {d : Disk FileName} {s : Store}
    (hrun : Run steps ⟨d, some s⟩) (hack : ∀ p ∈ steps, Acknowledged p.2) :
    Checkpoints s d ↔ s.data.FitsPages := by
  obtain ⟨m, hl⟩ := live_of_acknowledged hrun hack
  exact checkpoints_iff hl

/-! ## A store with one entry -/

section OneEntry
variable {value : String}

/-- The run that opens a store and sets a value. -/
theorem set_value_run (hfit : Wal.Fits (Command.set "a" value).encode) :
    ∃ steps d, Run steps ⟨d, some ⟨⟨[⟨["a"], [value], []⟩], 0, 1⟩, ⟨0, false, 0⟩⟩⟩ ∧
      steps.map Prod.snd = [.called (.set "a" value) (.ok ()), .opened] ∧ ∀ p ∈ steps, Acknowledged p.2 := by
  have hopen : openStore initial.disk = ([.create .wal], .ok newStore) := rfl
  have hrun := Run.start.step (.opened hopen)
  have hset : newStore.apply (.set "a" value) =
      ⟨appendOps [.set "a" value] ++ [.file .wal .sync], .ok (),
        ⟨⟨[⟨["a"], [value], []⟩], 0, 1⟩, ⟨0, false, 0⟩⟩⟩ := by
    have hmemory : applyMemory newStore.data (.set "a" value) = .ok ⟨[⟨["a"], [value], []⟩], 0, 1⟩ := rfl
    rw [apply, Wal.append_of_fits hfit]
    simp only [hmemory]
    rfl
  have hstep := Step.called (d := initial.disk.runOps [.create .wal]) (s := newStore) (.set "a" value)
  rw [Call.run, Store.set, hset] at hstep
  refine ⟨_, _, hrun.step hstep, rfl, ?_⟩
  intro p hp
  rcases List.mem_cons.1 hp with rfl | hp
  · trivial
  · rw [List.mem_singleton.1 hp]
    trivial

theorem fitsPages_one : (⟨[⟨["a"], [value], []⟩], 0, 1⟩ : BTreeIndex).FitsPages ↔ (utf8 value).length ≤ 4067 := by
  have hbytes : BTreeIndex.nodeBytes ⟨["a"], [value], []⟩ = 13 + (utf8 value).length := by
    have hkey : (utf8 "a").length = 1 := by decide +kernel
    simp only [BTreeIndex.nodeBytes, BTreeIndex.itemBytes, Node.leaf, List.isEmpty_nil, if_true,
      List.zipWith_cons_cons, List.zipWith_nil_left, List.sum_cons, List.sum_nil, hkey]
    omega
  have hcap : PAGE_SIZE - SlottedPage.HEADER_SIZE = 4080 := rfl
  constructor
  · intro h
    have hnode := h.1 ⟨["a"], [value], []⟩ (by simp)
    omega
  · intro h
    refine ⟨fun node hnode => ?_, by norm_num [PAGE_SIZE]⟩
    rw [List.mem_singleton.1 hnode]
    omega

end OneEntry

theorem checkpoint_iff_small : ∃ steps d s, Run steps ⟨d, some s⟩ ∧
    steps.map Prod.snd = [.called (.set "a" "1") (.ok ()), .opened] ∧ Checkpoints s d := by
  obtain ⟨steps, d, hrun, hlabels, hack⟩ := set_value_run (show Wal.Fits (Command.set "a" "1").encode by decide +kernel)
  exact ⟨steps, d, _, hrun, hlabels, (checkpoint_iff hrun hack).2 (fitsPages_one.2 (by decide +kernel))⟩

/-- A value that is longer than a page is accepted, and cannot be checkpointed. -/
theorem not_checkpoints_long : ∃ steps d s,
    Run steps ⟨d, some s⟩ ∧
    steps.map Prod.snd = [.called (.set "a" (String.ofList (List.replicate 4096 'a'))) (.ok ()), .opened] ∧
    ¬ Checkpoints s d := by
  have hlen := length_utf8_replicate 4096
  have hfit : Wal.Fits (Command.set "a" (String.ofList (List.replicate 4096 'a'))).encode := by
    have hkey : (utf8 "a").length = 1 := by decide +kernel
    rw [Wal.Fits, Command.encode, List.length_cons, List.length_append, Command.length_pushBytes,
      Command.length_pushBytes, hlen, hkey]
    norm_num
  obtain ⟨steps, d, hrun, hlabels, hack⟩ := set_value_run hfit
  refine ⟨steps, d, _, hrun, hlabels, fun h => ?_⟩
  obtain ⟨m, hl⟩ := live_of_acknowledged hrun hack
  have hfits := fitsPages_one.1 ((checkpoints_iff hl).1 h)
  rw [hlen] at hfits
  omega

end Store

end NutDb
