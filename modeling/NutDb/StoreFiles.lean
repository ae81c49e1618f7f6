/-
  What is recovered from the files of a store.

  `Recoverable d m`: opening a store on the directory `d` gives the map `m`.
  The invariant is kept by the file operations that opening, appending and
  checkpointing issue, and at every point between them, but one.
-/
import NutDb.Store

namespace NutDb

open Lib BTree

namespace Store

/-! ## What the directory holds -/

/-- The content of a file, as the program sees it. -/
def content (d : Disk FileName) (n : FileName) : Option Bytes := (d n).map File.bytes

/-- The content of the file is durable. -/
def Settled (d : Disk FileName) (n : FileName) : Prop := ∀ f, d n = some f → f = File.settled f.bytes

/-- The page file is loaded as a tree with the entries `m`. -/
def Loadable (file : Bytes) (m : List (String × String)) : Prop :=
  ∃ t, (BTreeIndex.loadExact file).2 = .ok t ∧ t.Represents m

/-- The snapshot in the files `.pages` and `.pages.bak`. -/
inductive Snap : Option Bytes → Option Bytes → List (String × String) → Prop
  | pages {file bak m} : Loadable file m → Snap (some file) bak m
  | bak {file m} : Loadable file m → Snap none (some file) m
  | none : Snap none none []

/-- The log holds the commands `cs`, and behind them bytes that are not a record. -/
structure Log (w : Option Bytes) (cs : List Command) (tail : Bytes) : Prop where
  fits : ∀ c ∈ cs, Wal.Fits c.encode
  bytes : w.getD [] = Wal.frames (cs.map Command.encode) ++ tail
  torn : ¬ Wal.StartsWithFrame tail

/-- The directory from which the map `m` is recovered. -/
structure Recoverable (d : Disk FileName) (m : List (String × String)) : Prop where
  settled : ∀ n, n ≠ .tmp → Settled d n
  holds : ∃ base cs tail, Snap (content d .pages) (content d .bak) base ∧
    Log (content d .wal) cs tail ∧ applyCommands base cs = m

/-- The store that is running on a directory: it has the map that would be recovered. -/
structure Live (s : Store) (d : Disk FileName) (m : List (String × String)) : Prop where
  data : s.data.Represents m
  settled : ∀ n, n ≠ .tmp → Settled d n
  wal : ∃ base cs, Snap (content d .pages) (content d .bak) base ∧
    (∀ c ∈ cs, Wal.Fits c.encode) ∧
    d .wal = some (File.settled (Wal.frames (cs.map Command.encode))) ∧ applyCommands base cs = m

section Basic
variable {d d' : Disk FileName} {m : List (String × String)} {n : FileName}

theorem Snap.sorted {p b : Option Bytes} (h : Snap p b m) : SortedKeys m := by
  cases h with
  | pages h => obtain ⟨t, -, ht⟩ := h; exact ht.sorted
  | bak h => obtain ⟨t, -, ht⟩ := h; exact ht.sorted
  | none => exact List.Pairwise.nil

/-- A crash leaves a durable file as it is. -/
theorem Settled.crashed (h : Settled d n) (hc : d.Crashed d') : d' n = d n := by
  have hn := hc n
  rcases hd : d n with _ | f
  · rw [hd] at hn; exact hn
  · rw [hd] at hn
    obtain ⟨c, hcl, hd'⟩ := hn
    have hf := h f hd
    rw [hf] at hcl
    rw [hd', hf]
    exact congrArg (fun c => some (File.settled c)) hcl

/-- What is recovered depends on the log and the two snapshot files only. -/
theorem Recoverable.congr (h : Recoverable d m) (hw : d' .wal = d .wal) (hp : d' .pages = d .pages)
    (hb : d' .bak = d .bak) : Recoverable d' m := by
  refine ⟨fun n hn f hf => ?_, ?_⟩
  · cases n with
    | wal => rw [hw] at hf; exact h.settled .wal (by decide) f hf
    | pages => rw [hp] at hf; exact h.settled .pages (by decide) f hf
    | bak => rw [hb] at hf; exact h.settled .bak (by decide) f hf
    | tmp => exact absurd rfl hn
  · simp only [content, hw, hp, hb]
    exact h.holds

/-- A crash of a directory whose files are durable. -/
theorem Recoverable.crashed (h : Recoverable d m) (hc : d.Crashed d') : Recoverable d' m :=
  h.congr ((h.settled .wal (by decide)).crashed hc) ((h.settled .pages (by decide)).crashed hc)
    ((h.settled .bak (by decide)).crashed hc)

theorem Live.recoverable {s : Store} (h : Live s d m) : Recoverable d m := by
  obtain ⟨base, cs, hs, hf, hw, ha⟩ := h.wal
  exact ⟨h.settled, base, cs, [], hs, ⟨hf, by simp [content, hw, File.settled],
    Wal.not_startsWithFrame_nil⟩, ha⟩

end Basic

/-! ## Opening -/

section Open
variable {d d' : Disk FileName} {m : List (String × String)} {n : FileName}

/-- The operations of loading a durable file leave the directory as it is. -/
theorem loadFile_fixed {file : Bytes} (h : d n = some (File.settled file)) :
    ∀ op ∈ (BTreeIndex.loadFile d n).1, op.run d = d := by
  have hbytes : ((d n).map File.bytes).getD [] = file := by rw [h]; rfl
  have hlen : setLen file file.length = file := by rw [setLen_of_le le_rfl, List.take_length]
  intro op hop
  simp only [BTreeIndex.loadFile, hbytes] at hop
  rcases List.mem_cons.1 hop with rfl | hop
  · rw [DiskOp.run, h]
    exact Disk.set_same h
  · have hfix : ∀ fop : FileOp, fop.run (File.settled file) = File.settled file →
        (DiskOp.file n fop).run d = d := by
      intro fop hf
      rw [DiskOp.run, h, Option.map_some, hf]
      exact Disk.set_same h
    rcases BTreeIndex.loadExact_ops file with he | he
    · rw [he] at hop; simp at hop
    · rw [he] at hop
      simp only [List.map_cons, List.map_nil, List.mem_cons, List.not_mem_nil, or_false] at hop
      rcases hop with rfl | rfl
      · refine hfix _ ?_
        simp [FileOp.run, File.settled, hlen]
      · exact hfix _ rfl

/-- **Loading finds the snapshot** and leaves the directory as it is. -/
theorem load_spec {base : List (String × String)} (hp : Settled d .pages) (hb : Settled d .bak)
    (h : Snap (content d .pages) (content d .bak) base) :
    ∃ ops t, BTreeIndex.load d = (ops, .ok t) ∧ t.Represents base ∧ ∀ op ∈ ops, op.run d = d := by
  unfold content at h
  rcases hdp : d .pages with _ | fp
  · rcases hdb : d .bak with _ | fb
    · rw [hdp, hdb] at h
      cases h with
      | none => exact ⟨[], _, by simp [BTreeIndex.load, hdp, hdb], BTreeIndex.new_represents, by simp⟩
    · have hset := hdb.trans (congrArg some (hb fb hdb))
      rw [hdp, hdb] at h
      cases h with
      | bak h =>
        obtain ⟨t, ht, hrep⟩ := h
        refine ⟨(BTreeIndex.loadFile d .bak).1, t, ?_, hrep, loadFile_fixed hset⟩
        simp [BTreeIndex.load, hdp, hdb, BTreeIndex.loadFile, ht]
  · have hset := hdp.trans (congrArg some (hp fp hdp))
    rw [hdp] at h
    cases h with
    | pages h =>
      obtain ⟨t, ht, hrep⟩ := h
      refine ⟨(BTreeIndex.loadFile d .pages).1, t, ?_, hrep, loadFile_fixed hset⟩
      simp [BTreeIndex.load, hdp, BTreeIndex.loadFile, ht]

theorem replayPath_log {w : Option Bytes} {cs : List Command} {tail : Bytes} (h : Log w cs tail) :
    Wal.replayPath w = ⟨cs.map Command.encode, decide (tail ≠ []),
      (Wal.frames (cs.map Command.encode)).length⟩ := by
  have hfits : ∀ p ∈ cs.map Command.encode, Wal.Fits p := by
    intro p hp
    obtain ⟨c, hc, rfl⟩ := List.mem_map.1 hp
    exact h.fits c hc
  rcases w with _ | b
  · have := h.bytes
    simp only [Option.getD_none] at this
    obtain ⟨h1, rfl⟩ := List.append_eq_nil_iff.1 this.symm
    rw [h1]
    rcases cs with _ | ⟨c, cs⟩
    · rfl
    · simp only [List.map_cons, Wal.frames_cons] at h1
      have := congrArg List.length h1
      simp [Wal.HEADER_LEN] at this
  · have := h.bytes
    simp only [Option.getD_some] at this
    rw [Wal.replayPath, this, Wal.replay_eq hfits h.torn]

/-- A directory with the same snapshot and another durable log. -/
theorem recoverable_of_wal {base : List (String × String)} {cs : List Command} {w tail : Bytes}
    (hp : Settled d .pages) (hb : Settled d .bak)
    (hsnap : Snap (content d .pages) (content d .bak) base) (hp' : d' .pages = d .pages)
    (hb' : d' .bak = d .bak) (hw : d' .wal = some (File.settled w)) (hlog : Log (some w) cs tail)
    (hm : applyCommands base cs = m) : Recoverable d' m := by
  refine ⟨fun n hn f hf => ?_, base, cs, tail, ?_, ?_, hm⟩
  · cases n with
    | wal => rw [hw] at hf; cases hf; rfl
    | pages => rw [hp'] at hf; exact hp f hf
    | bak => rw [hb'] at hf; exact hb f hf
    | tmp => exact absurd rfl hn
  · simp only [content, hp', hb'] at hsnap ⊢; exact hsnap
  · simp only [content, hw, Option.map_some]; exact hlog

/-- Running the operations after some that leave the directory as it is. -/
theorem runOps_take_fixed {ops : List (DiskOp FileName)} (h : ∀ op ∈ ops, op.run d = d)
    (rest : List (DiskOp FileName)) (k : ℕ) : ∃ j, d.runOps ((ops ++ rest).take k) = d.runOps (rest.take j) := by
  refine ⟨k - ops.length, ?_⟩
  rw [List.take_append, Disk.runOps_append,
    Disk.runOps_fixed fun op hop => h op (List.mem_of_mem_take hop)]

/-- The operations of an opening after the snapshot is loaded: repair the log if it is torn, and
    create it if it is not there. -/
def repairOps (tail : Bytes) (valid : ℕ) : List (DiskOp FileName) :=
  (if tail ≠ [] then [.file .wal (.setLen valid), .file .wal .sync] else []) ++ [.create .wal]

/-- **Repairing the log**: afterwards it consists of whole records, and a crash leaves it repaired
    or as it was. -/
theorem repairOps_spec {cs : List Command} {tail : Bytes} (hws : Settled d .wal)
    (hlog : Log (content d .wal) cs tail) {F : Bytes}
    (hF : F = Wal.frames (cs.map Command.encode)) :
    (d.runOps (repairOps tail F.length)) .wal = some (File.settled F) ∧
    (∀ n, n ≠ .wal → (d.runOps (repairOps tail F.length)) n = d n) ∧
    ∀ k d', (d.runOps ((repairOps tail F.length).take k)).Crashed d' →
      (∀ n, n ≠ .wal → Settled d n → d' n = d n) ∧
      (d' .wal = d .wal ∨ d' .wal = some (File.settled F)) := by
  have hbytes := hlog.bytes
  rw [← hF] at hbytes
  by_cases htail : tail = []
  · subst htail
    rw [List.append_nil] at hbytes
    have hself : (DiskOp.run (.create .wal) d) .wal = some (File.settled F) := by
      simp only [DiskOp.run, Disk.set_self]
      rcases hd : d .wal with _ | f
      · rw [content, hd] at hbytes
        rw [← hbytes]; rfl
      · rw [content, hd] at hbytes
        rw [← hbytes]
        exact congrArg some (hws f hd)
    have hother : ∀ n, n ≠ .wal → (DiskOp.run (.create .wal) d) n = d n :=
      fun n hn => Disk.set_other d _ hn
    have hops : repairOps [] F.length = [.create .wal] := rfl
    rw [hops]
    refine ⟨hself, hother, fun k d' hc => ?_⟩
    rcases k with _ | k
    · exact ⟨fun n _ hn => hn.crashed hc, Or.inl (hws.crashed hc)⟩
    · rw [List.take_succ_cons, List.take_nil] at hc
      refine ⟨fun n hn hs => ?_, Or.inr ?_⟩
      · have hs' : Settled (DiskOp.run (.create .wal) d) n := by
          intro f hf; rw [hother n hn] at hf; exact hs f hf
        exact (hs'.crashed hc).trans (hother n hn)
      · have hs' : Settled (DiskOp.run (.create .wal) d) .wal := by
          intro f hf; rw [hself] at hf; cases hf; rfl
        exact (hs'.crashed hc).trans hself
  · -- a torn tail means that there is a log
    obtain ⟨b, hd, hb⟩ : ∃ b, d .wal = some (File.settled b) ∧ b = F ++ tail := by
      rcases hd : d .wal with _ | f
      · rw [content, hd] at hbytes
        simp only [Option.map_none, Option.getD_none] at hbytes
        exact absurd (List.append_eq_nil_iff.1 hbytes.symm).2 htail
      · rw [content, hd] at hbytes
        exact ⟨f.bytes, congrArg some (hws f hd), hbytes⟩
    have hcut : setLen b F.length = F := by
      rw [hb, setLen_of_le (by simp), List.take_left' rfl]
    have hops : repairOps tail F.length =
        [.file .wal (.setLen F.length), .file .wal .sync, .create .wal] := by
      simp [repairOps, htail]
    obtain ⟨d₁, hd₁⟩ : ∃ d₁, d₁ = DiskOp.run (.file .wal (.setLen F.length)) d := ⟨_, rfl⟩
    obtain ⟨d₂, hd₂⟩ : ∃ d₂, d₂ = DiskOp.run (.file .wal .sync) d₁ := ⟨_, rfl⟩
    have h1 : d₁ .wal = some ⟨F, {b} ∪ {F}⟩ := by
      rw [hd₁]; simp [DiskOp.run, hd, FileOp.run, File.settled, hcut]
    have h2 : d₂ .wal = some (File.settled F) := by
      rw [hd₂]; simp [DiskOp.run, h1, FileOp.run, File.settled]
    have h3 : DiskOp.run (.create .wal) d₂ = d₂ := by
      rw [DiskOp.run, h2]; exact Disk.set_same h2
    have ho1 : ∀ n, n ≠ .wal → d₁ n = d n := fun n hn => by rw [hd₁]; exact Disk.set_other d _ hn
    have ho2 : ∀ n, n ≠ .wal → d₂ n = d n := fun n hn => by
      rw [hd₂]; exact (Disk.set_other d₁ _ hn).trans (ho1 n hn)
    have hs2 : ∀ n, n ≠ .wal → Settled d n → Settled d₂ n := fun n hn hs f hf => by
      rw [ho2 n hn] at hf; exact hs f hf
    have hend : ∀ d', d₂.Crashed d' → (∀ n, n ≠ .wal → Settled d n → d' n = d n) ∧
        (d' .wal = d .wal ∨ d' .wal = some (File.settled F)) := by
      intro d' hc
      have hs : Settled d₂ .wal := by intro f hf; rw [h2] at hf; cases hf; rfl
      exact ⟨fun n hn hs => ((hs2 n hn hs).crashed hc).trans (ho2 n hn),
        Or.inr ((hs.crashed hc).trans h2)⟩
    rw [hops]
    simp only [Disk.runOps_cons, Disk.runOps_nil, ← hd₁, ← hd₂, h3]
    refine ⟨h2, ho2, fun k d' hc => ?_⟩
    rcases k with _ | _ | _ | k
    · exact ⟨fun n _ hn => hn.crashed hc, Or.inl (hws.crashed hc)⟩
    · simp only [List.take_succ_cons, List.take_zero, Disk.runOps_cons, Disk.runOps_nil, ← hd₁] at hc
      refine ⟨fun n hn hs => ?_, ?_⟩
      · have hs' : Settled d₁ n := fun f hf => by rw [ho1 n hn] at hf; exact hs f hf
        exact (hs'.crashed hc).trans (ho1 n hn)
      · -- the crash keeps the old length or the new one
        have hcw := hc .wal
        rw [h1] at hcw
        obtain ⟨c, hcl, hdw⟩ := hcw
        rcases hcl with rfl | rfl
        · exact Or.inl (hdw.trans hd.symm)
        · exact Or.inr hdw
    · simp only [List.take_succ_cons, List.take_zero, Disk.runOps_cons, Disk.runOps_nil, ← hd₁,
        ← hd₂] at hc
      exact hend d' hc
    · simp only [List.take_succ_cons, List.take_nil, Disk.runOps_cons, Disk.runOps_nil, ← hd₁,
        ← hd₂, h3] at hc
      exact hend d' hc

/-- **Opening recovers the map**, leaves a log without a torn tail, and may itself crash at any
    point. -/
theorem open_spec (h : Recoverable d m) : ∃ ops s, openStore d = (ops, .ok s) ∧
    Live s (d.runOps ops) m ∧
    ∀ k d', (d.runOps (ops.take k)).Crashed d' → Recoverable d' m := by
  obtain ⟨base, cs, tail, hsnap, hlog, hm⟩ := h.holds
  have hp := h.settled .pages (by decide)
  have hb := h.settled .bak (by decide)
  obtain ⟨loadOps, t, hload, ht, hfix⟩ := load_spec hp hb hsnap
  obtain ⟨data, hdata, hrep⟩ := replayRecords_spec hlog.fits ht
  rw [hm] at hrep
  have hreplay := replayPath_log hlog
  obtain ⟨F, hF⟩ : ∃ F, F = Wal.frames (cs.map Command.encode) := ⟨_, rfl⟩
  obtain ⟨hwal, hother, hcrash⟩ := repairOps_spec (h.settled .wal (by decide)) hlog hF
  unfold content at hreplay
  rw [← hF] at hreplay
  have hlogF : Log (some F) cs [] := ⟨hlog.fits, by simp [hF], Wal.not_startsWithFrame_nil⟩
  have hbind : ((.ok t : Res BTreeIndex).bind fun data => replayRecords data (cs.map Command.encode)) =
      .ok data := hdata
  have hopen : openStore d = (loadOps ++ repairOps tail F.length,
      .ok ⟨data, ⟨(cs.map Command.encode).length, decide (tail ≠ []), F.length⟩⟩) := by
    simp only [openStore, hreplay, hload, hbind, repairOps, List.append_assoc]
    by_cases htail : tail = [] <;> simp [htail]
  have hrun : d.runOps (loadOps ++ repairOps tail F.length) = d.runOps (repairOps tail F.length) := by
    rw [Disk.runOps_append, Disk.runOps_fixed hfix]
  refine ⟨_, _, hopen, ?_, fun k d' hc => ?_⟩
  · rw [hrun]
    have hrec : Recoverable (d.runOps (repairOps tail F.length)) m :=
      recoverable_of_wal hp hb hsnap (hother _ (by decide)) (hother _ (by decide)) hwal hlogF hm
    refine ⟨hrep, hrec.settled, base, cs, ?_, hlog.fits, hF ▸ hwal, hm⟩
    simp only [content, hother .pages (by decide), hother .bak (by decide)]
    exact hsnap
  · obtain ⟨j, hj⟩ := runOps_take_fixed hfix (repairOps tail F.length) k
    rw [hj] at hc
    obtain ⟨h1, h2⟩ := hcrash j d' hc
    have hp' := h1 .pages (by decide) hp
    have hb' := h1 .bak (by decide) hb
    rcases h2 with h2 | h2
    · exact h.congr h2 hp' hb'
    · exact recoverable_of_wal hp hb hsnap hp' hb' h2 hlogF hm

end Open

/-! ## Appending records -/

/-- The operations that append the records of some commands. -/
def appendOps (cs : List Command) : List (DiskOp FileName) :=
  cs.map fun c => .file .wal (.append (Wal.frame c.encode))

section Append
variable {d d' : Disk FileName} {m : List (String × String)} {s : Store} {cs : List Command}

theorem runOps_appendOps_other {n : FileName} (hn : n ≠ .wal) : d.runOps (appendOps cs) n = d n := by
  have : appendOps cs =
      (cs.map fun c => FileOp.append (Wal.frame c.encode)).map (DiskOp.file .wal) := by
    simp [appendOps]
  rw [this]
  exact Disk.runOps_file_other d _ hn

/-- The log after some appends: a crash may cut it anywhere behind what was durable before. -/
theorem runOps_appendOps_wal (cs : List Command) {W A : Bytes} {f : File} (hd : d .wal = some f) (hb : f.bytes = W ++ A)
    (hl : ∀ c ∈ f.left, W <+: c ∧ c <+: W ++ A) :
    ∃ g, d.runOps (appendOps cs) .wal = some g ∧
      g.bytes = W ++ A ++ Wal.frames (cs.map Command.encode) ∧
      ∀ c ∈ g.left, W <+: c ∧ c <+: W ++ A ++ Wal.frames (cs.map Command.encode) := by
  induction cs generalizing d A f with
  | nil => exact ⟨f, hd, by simpa using hb, by simpa using hl⟩
  | cons c cs ih =>
    have hd₁ : DiskOp.run (.file .wal (.append (Wal.frame c.encode))) d .wal =
        some ((FileOp.append (Wal.frame c.encode)).run f) := by
      simp [DiskOp.run, hd]
    have hleft : ∀ x ∈ ((FileOp.append (Wal.frame c.encode)).run f).left,
        W <+: x ∧ x <+: W ++ (A ++ Wal.frame c.encode) := by
      intro x hx
      rw [← List.append_assoc]
      rcases hx with hx | ⟨hx1, hx2⟩
      · exact ⟨(hl x hx).1, (hl x hx).2.trans (List.prefix_append _ _)⟩
      · rw [hb] at hx1 hx2
        exact ⟨((List.prefix_append _ _).trans hx1), hx2⟩
    obtain ⟨g, h1, h2, h3⟩ := ih (A := A ++ Wal.frame c.encode) hd₁
      (by simp [FileOp.run, hb]) hleft
    refine ⟨g, h1, by simpa using h2, fun x hx => ?_⟩
    simpa using h3 x hx

theorem runOps_appendOps_settled (cs : List Command) {W : Bytes} (hd : d .wal = some (File.settled W)) :
    ∃ g, d.runOps (appendOps cs) .wal = some g ∧
      g.bytes = W ++ Wal.frames (cs.map Command.encode) ∧
      ∀ c ∈ g.left, W <+: c ∧ c <+: W ++ Wal.frames (cs.map Command.encode) := by
  have := runOps_appendOps_wal cs (W := W) (A := []) hd (by simp [File.settled])
    (by simp [File.settled])
  simpa using this

/-- What is recovered from a log cut behind its durable part. -/
theorem recoverable_of_cut {base : List (String × String)} {L : List Command} {c : Bytes}
    (hp : Settled d .pages) (hb : Settled d .bak)
    (hsnap : Snap (content d .pages) (content d .bak) base) (hp' : d' .pages = d .pages)
    (hb' : d' .bak = d .bak) (hL : ∀ c ∈ L, Wal.Fits c.encode) (hcs : ∀ c ∈ cs, Wal.Fits c.encode)
    (hm : applyCommands base L = m) (hw : d' .wal = some (File.settled c))
    (hlo : Wal.frames (L.map Command.encode) <+: c)
    (hhi : c <+: Wal.frames (L.map Command.encode) ++ Wal.frames (cs.map Command.encode)) :
    ∃ n, Recoverable d' (applyCommands m (cs.take n)) := by
  have hfits : ∀ p ∈ L.map Command.encode ++ cs.map Command.encode, Wal.Fits p := by
    intro p hp
    rw [← List.map_append] at hp
    obtain ⟨c, hc, rfl⟩ := List.mem_map.1 hp
    rcases List.mem_append.1 hc with hc | hc
    · exact hL c hc
    · exact hcs c hc
  rw [← Wal.frames_append] at hhi
  obtain ⟨qs₁, qs₂, t, hq, hc, ht, -⟩ := Wal.replay_cut hfits hlo hhi
  obtain ⟨cs₁, cs₂, rfl, rfl, rfl⟩ := List.map_eq_append_iff.1 hq
  have hlog : Log (some c) (L ++ cs₁) t := by
    refine ⟨fun c hc => ?_, by rw [List.map_append]; exact hc, ht⟩
    rcases List.mem_append.1 hc with hc | hc
    · exact hL c hc
    · exact hcs c (by simp [hc])
  refine ⟨cs₁.length, recoverable_of_wal hp hb hsnap hp' hb' hw hlog ?_⟩
  rw [List.take_left' rfl, ← hm, applyCommands, applyCommands, applyCommands, List.foldl_append]

/-- **A crash while records are appended keeps a prefix of them.** -/
theorem append_crash (hl : Live s d m) (hcs : ∀ c ∈ cs, Wal.Fits c.encode)
    (hc : (d.runOps (appendOps cs)).Crashed d') :
    ∃ n, Recoverable d' (applyCommands m (cs.take n)) := by
  obtain ⟨base, L, hsnap, hL, hw, hm⟩ := hl.wal
  obtain ⟨g, h1, -, h3⟩ := runOps_appendOps_settled cs hw
  have hsame : ∀ n, n ≠ .wal → n ≠ .tmp → d' n = d n := by
    intro n hn ht
    have hs : Settled (d.runOps (appendOps cs)) n := fun f hf => by
      rw [runOps_appendOps_other hn] at hf; exact hl.settled n ht f hf
    exact (hs.crashed hc).trans (runOps_appendOps_other hn)
  have hcw := hc .wal
  rw [h1] at hcw
  obtain ⟨c, hcl, hdw⟩ := hcw
  obtain ⟨hlo, hhi⟩ := h3 c hcl
  exact recoverable_of_cut (hl.settled _ (by decide)) (hl.settled _ (by decide)) hsnap
    (hsame .pages (by decide) (by decide)) (hsame .bak (by decide) (by decide)) hL hcs hm hdw hlo hhi

/-- **Records that are appended and synced are in the log.** -/
theorem append_done (s' : Store) (hl : Live s d m) (hcs : ∀ c ∈ cs, Wal.Fits c.encode)
    (hrep : s'.data.Represents (applyCommands m cs)) :
    Live s' (d.runOps (appendOps cs ++ [.file .wal .sync])) (applyCommands m cs) := by
  obtain ⟨base, L, hsnap, hL, hw, hm⟩ := hl.wal
  obtain ⟨g, h1, h2, -⟩ := runOps_appendOps_settled cs hw
  have hwal : d.runOps (appendOps cs ++ [.file .wal .sync]) .wal =
      some (File.settled (Wal.frames ((L ++ cs).map Command.encode))) := by
    rw [Disk.runOps_append, Disk.runOps_cons, Disk.runOps_nil, DiskOp.run, Disk.set_self, h1,
      Option.map_some, FileOp.run, h2, List.map_append, Wal.frames_append]
  have hother : ∀ n, n ≠ .wal → d.runOps (appendOps cs ++ [.file .wal .sync]) n = d n := by
    intro n hn
    rw [Disk.runOps_append, Disk.runOps_cons, Disk.runOps_nil, DiskOp.run, Disk.set_other _ _ hn,
      runOps_appendOps_other hn]
  refine ⟨hrep, fun n hn f hf => ?_, base, L ++ cs, ?_, ?_, hwal, ?_⟩
  · by_cases hnw : n = .wal
    · subst hnw; rw [hwal] at hf; cases hf; rfl
    · rw [hother n hnw] at hf; exact hl.settled n hn f hf
  · simp only [content, hother .pages (by decide), hother .bak (by decide)]
    exact hsnap
  · intro c hc
    rcases List.mem_append.1 hc with hc | hc
    · exact hL c hc
    · exact hcs c hc
  · rw [← hm, applyCommands, applyCommands, applyCommands, List.foldl_append]

/-- A crash anywhere while records are appended and synced keeps a prefix of them. -/
theorem append_sync_crash {k : ℕ} (hl : Live s d m) (hcs : ∀ c ∈ cs, Wal.Fits c.encode)
    (hc : (d.runOps ((appendOps cs ++ [DiskOp.file FileName.wal .sync]).take k)).Crashed d') :
    ∃ n, Recoverable d' (applyCommands m (cs.take n)) := by
  by_cases hk : k ≤ cs.length
  · have htake : (appendOps cs ++ [DiskOp.file FileName.wal .sync]).take k = appendOps (cs.take k) := by
      rw [List.take_append_of_le_length (by simpa [appendOps] using hk), appendOps, appendOps,
        List.map_take]
    rw [htake] at hc
    obtain ⟨n, hn⟩ := append_crash hl (fun c hc => hcs c (List.mem_of_mem_take hc)) hc
    exact ⟨min n k, by rwa [List.take_take] at hn⟩
  · rw [List.take_of_length_le (by simp [appendOps]; omega)] at hc
    obtain ⟨data, hdata, hrep⟩ := foldlM_applyMemory cs hl.data
    have hlive := append_done { s with data := data } hl hcs hrep
    exact ⟨cs.length, by rw [List.take_length]; exact hlive.recoverable.crashed hc⟩

end Append

/-! ## Checkpoints -/

section Checkpoint
variable {d d' : Disk FileName} {m : List (String × String)} {s : Store}

theorem settled_eq {n : FileName} (h : Settled d n) : d n = (content d n).map File.settled := by
  rcases hd : d n with _ | f
  · simp [content, hd]
  · simp only [content, hd, Option.map_some]
    exact congrArg some (h f hd)

theorem settled_of_map {n : FileName} {o : Option Bytes} (h : d n = o.map File.settled) : Settled d n := by
  intro f hf
  rw [h] at hf
  obtain ⟨c, -, rfl⟩ := Option.map_eq_some_iff.1 hf
  rfl

theorem content_of_map {n : FileName} {o : Option Bytes} (h : d n = o.map File.settled) :
    content d n = o := by
  rw [content, h, Option.map_map]
  cases o <;> rfl

/-- A directory given by the contents of its files. -/
theorem recoverable_of_files {base : List (String × String)} {L : List Command} {p b : Option Bytes}
    (hL : ∀ c ∈ L, Wal.Fits c.encode)
    (hw : d .wal = some (File.settled (Wal.frames (L.map Command.encode))))
    (hp : d .pages = p.map File.settled) (hb : d .bak = b.map File.settled)
    (hsnap : Snap p b base) (hm : applyCommands base L = m) : Recoverable d m := by
  refine recoverable_of_wal (settled_of_map hp) (settled_of_map hb) ?_ rfl rfl hw
    ⟨hL, by simp, Wal.not_startsWithFrame_nil⟩ hm
  rw [content_of_map hp, content_of_map hb]
  exact hsnap

/-- The operations of a checkpoint after the snapshot is published. -/
def truncateOps : List (DiskOp FileName) :=
  [.file .wal (.append (Wal.frame Command.checkpoint.encode)), .file .wal .sync,
    .file .wal (.setLen 0), .file .wal .sync]

/-- **Truncating the log** behind a snapshot that has everything. -/
theorem truncateOps_spec {file : Bytes} {L : List Command} (hdata : s.data.Represents m)
    (hset : ∀ n, n ≠ .tmp → Settled d n) (hp : d .pages = some (File.settled file))
    (hfile : Loadable file m) (hL : ∀ c ∈ L, Wal.Fits c.encode)
    (hw : d .wal = some (File.settled (Wal.frames (L.map Command.encode))))
    (hm : applyCommands m L = m) :
    Live s (d.runOps truncateOps) m ∧
    ∀ k d', (d.runOps (truncateOps.take k)).Crashed d' → Recoverable d' m := by
  have hsnap : Snap (content d .pages) (content d .bak) m := by
    rw [content, hp]; exact Snap.pages hfile
  have hlive : Live s d m := ⟨hdata, hset, m, L, hsnap, hL, hw, hm⟩
  have hfits : ∀ c ∈ [Command.checkpoint], Wal.Fits c.encode := by
    intro c hc; rw [List.mem_singleton.1 hc]; exact Command.fits_checkpoint
  -- the checkpoint record, appended and synced
  obtain ⟨d₁, hd₁⟩ : ∃ d₁, d₁ = d.runOps (appendOps [.checkpoint] ++ [.file .wal .sync]) := ⟨_, rfl⟩
  have hlive₁ : Live s d₁ m := by
    have := append_done s hlive hfits hdata
    rwa [← hd₁] at this
  obtain ⟨base₁, L₁, hsnap₁, hL₁, hw₁, hm₁⟩ := hlive₁.wal
  -- emptied, and the emptying synced
  obtain ⟨d₂, hd₂⟩ : ∃ d₂, d₂ = DiskOp.run (.file .wal (.setLen 0)) d₁ := ⟨_, rfl⟩
  obtain ⟨d₃, hd₃⟩ : ∃ d₃, d₃ = DiskOp.run (.file .wal .sync) d₂ := ⟨_, rfl⟩
  have hw₂ : d₂ .wal = some ⟨[], {Wal.frames (L₁.map Command.encode)} ∪ {[]}⟩ := by
    rw [hd₂]; simp [DiskOp.run, hw₁, FileOp.run, File.settled, setLen]
  have hw₃ : d₃ .wal = some (File.settled []) := by
    rw [hd₃]; simp [DiskOp.run, hw₂, FileOp.run, File.settled]
  have ho₂ : ∀ n, n ≠ .wal → d₂ n = d₁ n := fun n hn => by rw [hd₂]; exact Disk.set_other d₁ _ hn
  have ho₃ : ∀ n, n ≠ .wal → d₃ n = d₁ n := fun n hn => by
    rw [hd₃]; exact (Disk.set_other d₂ _ hn).trans (ho₂ n hn)
  have ho₁ : ∀ n, n ≠ .wal → d₁ n = d n := by
    intro n hn
    rw [hd₁, Disk.runOps_append, Disk.runOps_cons, Disk.runOps_nil, DiskOp.run,
      Disk.set_other _ _ hn, runOps_appendOps_other hn]
  have hsnap' : Snap (content d₁ .pages) (content d₁ .bak) m := by
    simp only [content, ho₁ .pages (by decide), ho₁ .bak (by decide)]; exact hsnap
  have hp₁ := hlive₁.settled .pages (by decide)
  have hb₁ := hlive₁.settled .bak (by decide)
  have hempty : Log (some []) [] [] := ⟨by simp, by simp, Wal.not_startsWithFrame_nil⟩
  have hrec₃ : Recoverable d₃ m :=
    recoverable_of_wal hp₁ hb₁ hsnap' (ho₃ _ (by decide)) (ho₃ _ (by decide)) hw₃ hempty rfl
  have hops : truncateOps = appendOps [.checkpoint] ++ [.file .wal .sync] ++
      [.file .wal (.setLen 0), .file .wal .sync] := rfl
  have hrun : d.runOps truncateOps = d₃ := by
    rw [hops, Disk.runOps_append, ← hd₁, Disk.runOps_cons, ← hd₂, Disk.runOps_cons, ← hd₃,
      Disk.runOps_nil]
  constructor
  · rw [hrun]
    refine ⟨hdata, hrec₃.settled, m, [], ?_, by simp, hw₃, rfl⟩
    simp only [content, ho₃ .pages (by decide), ho₃ .bak (by decide)]; exact hsnap'
  · intro k d' hc
    have hearly : ∀ j, (d.runOps ((appendOps [.checkpoint] ++
        [DiskOp.file FileName.wal .sync]).take j)).Crashed d' → Recoverable d' m := by
      intro j hj
      obtain ⟨n, hn⟩ := append_sync_crash hlive hfits hj
      have : applyCommands m ([Command.checkpoint].take n) = m := by
        rcases n with _ | n
        · rfl
        · rw [List.take_succ_cons, List.take_nil]; rfl
      rwa [this] at hn
    rcases k with _ | _ | _ | _ | k
    · exact hearly 0 hc
    · exact hearly 1 hc
    · exact hearly 2 hc
    · -- the emptying has happened or not
      have hrun : d.runOps (truncateOps.take 3) = d₂ := by
        rw [show truncateOps.take 3 = appendOps [.checkpoint] ++ [.file .wal .sync] ++
          [.file .wal (.setLen 0)] from rfl, Disk.runOps_append, ← hd₁, Disk.runOps_cons, ← hd₂,
          Disk.runOps_nil]
      rw [hrun] at hc
      have hcw := hc .wal
      rw [hw₂] at hcw
      obtain ⟨c, hcl, hdw⟩ := hcw
      have hsame : ∀ n, n ≠ .wal → n ≠ .tmp → d' n = d₁ n := by
        intro n hn ht
        have hs : Settled d₂ n := fun f hf => by
          rw [ho₂ n hn] at hf; exact hlive₁.settled n ht f hf
        exact (hs.crashed hc).trans (ho₂ n hn)
      have hp' := hsame .pages (by decide) (by decide)
      have hb' := hsame .bak (by decide) (by decide)
      rcases hcl with rfl | rfl
      · exact hlive₁.recoverable.congr (hdw.trans hw₁.symm) hp' hb'
      · exact recoverable_of_wal hp₁ hb₁ hsnap' hp' hb' hdw hempty rfl
    · rw [List.take_of_length_le (by simp [truncateOps]), hrun] at hc
      exact hrec₃.crashed hc

/-- The operations of a save after the temporary file is complete. -/
def publishOps (pathExists : Bool) : List (DiskOp FileName) :=
  BTreeIndex.publishSnapshot pathExists ++ [.syncDir]

/-- **Publishing a snapshot**, cut at any point: the directory has the new snapshot or the old one,
    except in the moment between the removal of the backup and the renaming of the new snapshot, if
    the backup was the only snapshot. -/
theorem publish_files {base : List (String × String)} {file : Bytes} {p b : Option Bytes}
    (hp : d .pages = p.map File.settled) (hb : d .bak = b.map File.settled)
    (ht : d .tmp = some (File.settled file)) (hsnap : Snap p b base) (k : ℕ) :
    ∃ p' b', d.runOps ((publishOps (d .pages).isSome).take k) .wal = d .wal ∧
      d.runOps ((publishOps (d .pages).isSome).take k) .pages = p'.map File.settled ∧
      d.runOps ((publishOps (d .pages).isSome).take k) .bak = b'.map File.settled ∧
      (p' = some file ∨ Snap p' b' base ∨ (p = none ∧ b ≠ none ∧ k = 1 ∧ p' = none ∧ b' = none)) := by
  rcases p with _ | fp
  · rw [Option.map_none] at hp
    simp only [hp, Option.isSome_none, publishOps, BTreeIndex.publishSnapshot, Bool.false_eq_true, if_false,
      List.append_nil, List.cons_append, List.nil_append]
    rcases k with _ | _ | k
    · exact ⟨none, b, rfl, hp, hb, Or.inr (Or.inl hsnap)⟩
    · refine ⟨none, none, by simp [DiskOp.run, Disk.set], by simp [DiskOp.run, Disk.set, hp],
        by simp [DiskOp.run, Disk.set], Or.inr ?_⟩
      by_cases hb0 : b = none
      · subst hb0
        exact Or.inl hsnap
      · exact Or.inr ⟨trivial, hb0, rfl, rfl, rfl⟩
    · refine ⟨some file, none, ?_, ?_, ?_, Or.inl rfl⟩ <;>
        rcases k with _ | _ | k <;> simp [DiskOp.run, Disk.set, ht]
  · rw [Option.map_some] at hp
    simp only [hp, Option.isSome_some, publishOps, BTreeIndex.publishSnapshot, if_true,
      List.cons_append, List.nil_append]
    have hold : Loadable fp base := by cases hsnap with | pages h => exact h
    rcases k with _ | _ | _ | _ | k
    · exact ⟨some fp, b, rfl, hp, hb, Or.inr (Or.inl hsnap)⟩
    · exact ⟨some fp, none, by simp [DiskOp.run, Disk.set], by simp [DiskOp.run, Disk.set, hp],
        by simp [DiskOp.run, Disk.set], Or.inr (Or.inl (.pages hold))⟩
    · exact ⟨none, some fp, by simp [DiskOp.run, Disk.set, hp], by simp [DiskOp.run, Disk.set, hp],
        by simp [DiskOp.run, Disk.set, hp], Or.inr (Or.inl (.bak hold))⟩
    · exact ⟨some file, some fp, by simp [DiskOp.run, Disk.set, ht, hp],
        by simp [DiskOp.run, Disk.set, ht, hp], by simp [DiskOp.run, Disk.set, ht, hp], Or.inl rfl⟩
    · refine ⟨some file, none, ?_, ?_, ?_, Or.inl rfl⟩ <;>
        rcases k with _ | k <;> simp [DiskOp.run, Disk.set, ht, hp]

/-- The files after a snapshot is published. -/
theorem publish_done {file : Bytes} (ht : d .tmp = some (File.settled file)) :
    d.runOps (publishOps (d .pages).isSome) .wal = d .wal ∧
      d.runOps (publishOps (d .pages).isSome) .pages = some (File.settled file) ∧
      d.runOps (publishOps (d .pages).isSome) .bak = none := by
  cases hp : d .pages <;> simp [publishOps, BTreeIndex.publishSnapshot, DiskOp.run, Disk.set, ht, hp]

/-- **Publishing recovers the same map** at every point but one. -/
theorem publish_spec {base : List (String × String)} {L : List Command} {file : Bytes}
    {p b : Option Bytes} (hL : ∀ c ∈ L, Wal.Fits c.encode)
    (hw : d .wal = some (File.settled (Wal.frames (L.map Command.encode))))
    (hp : d .pages = p.map File.settled) (hb : d .bak = b.map File.settled)
    (ht : d .tmp = some (File.settled file)) (hsnap : Snap p b base)
    (hm : applyCommands base L = m) (hfile : Loadable file m) (hm' : applyCommands m L = m)
    {k : ℕ} (hk : ¬ (p = none ∧ b ≠ none ∧ k = 1)) :
    Recoverable (d.runOps ((publishOps (d .pages).isSome).take k)) m := by
  obtain ⟨p', b', hw', hp', hb', rfl | hsnap' | ⟨h1, h2, h3, -⟩⟩ := publish_files hp hb ht hsnap k
  · exact recoverable_of_files hL (hw'.trans hw) hp' hb' (.pages hfile) hm'
  · exact recoverable_of_files hL (hw'.trans hw) hp' hb' hsnap' hm
  · exact absurd ⟨h1, h2, h3⟩ hk

theorem Live.congr (hl : Live s d m) (hw : d' .wal = d .wal) (hp : d' .pages = d .pages)
    (hb : d' .bak = d .bak) : Live s d' m := by
  obtain ⟨base, L, hsnap, hL, hwal, hm⟩ := hl.wal
  refine ⟨hl.data, (hl.recoverable.congr hw hp hb).settled, base, L, ?_, hL, hw.trans hwal, hm⟩
  simp only [content, hp, hb]
  exact hsnap

theorem checkpoint_ops_ok (h : s.data.saveTemp.2 = .ok ()) :
    s.checkpoint d = ⟨s.data.saveTemp.1 ++
      publishOps (d.runOps s.data.saveTemp.1 .pages).isSome ++ truncateOps, .ok (), s⟩ := by
  have hst : s.data.saveTemp = (s.data.saveTemp.1, .ok ()) := Prod.ext rfl h
  rw [checkpoint, BTreeIndex.save, hst]
  simp [Wal.append_of_fits Command.fits_checkpoint, publishOps, truncateOps]

theorem checkpoint_ops_error {e : Fault} (h : s.data.saveTemp.2 = .error e) :
    s.checkpoint d = ⟨s.data.saveTemp.1, .error (stageError "write page snapshot" e), s⟩ := by
  have hst : s.data.saveTemp = (s.data.saveTemp.1, .error e) := Prod.ext rfl h
  rw [checkpoint, BTreeIndex.save, hst]

/-- A checkpoint that is cut `j` operations after the temporary file is complete. -/
theorem runOps_checkpoint_take (h : s.data.saveTemp.2 = .ok ()) (j : ℕ) :
    d.runOps ((s.checkpoint d).ops.take (s.data.saveTemp.1.length + j)) =
      (d.runOps s.data.saveTemp.1).runOps
        ((publishOps (d .pages).isSome ++ truncateOps).take j) := by
  have hp : d.runOps s.data.saveTemp.1 .pages = d .pages := BTreeIndex.runOps_saveTemp_done (by decide)
  rw [checkpoint_ops_ok h, hp]
  simp only [List.append_assoc]
  rw [List.take_length_add_append, Disk.runOps_append]

/-- **A checkpoint changes nothing that is recovered**, at any point but the one. -/
theorem checkpoint_spec (hl : Live s d m) :
    Live (s.checkpoint d).store (d.runOps (s.checkpoint d).ops) m ∧
    ∀ k d', ¬ (d .pages = none ∧ d .bak ≠ none ∧ s.data.saveTemp.2 = .ok () ∧
        k = s.data.saveTemp.1.length + 1) →
      (d.runOps ((s.checkpoint d).ops.take k)).Crashed d' → Recoverable d' m := by
  -- while the temporary file is written, nothing else changes
  have htmp : ∀ k, Live s (d.runOps (s.data.saveTemp.1.take k)) m := fun k =>
    hl.congr (BTreeIndex.runOps_saveTemp_other (by decide) k) (BTreeIndex.runOps_saveTemp_other (by decide) k)
      (BTreeIndex.runOps_saveTemp_other (by decide) k)
  obtain ⟨dT, hdT⟩ : ∃ dT, dT = d.runOps s.data.saveTemp.1 := ⟨_, rfl⟩
  have hother : ∀ n, n ≠ .tmp → dT n = d n := fun n hn => by
    rw [hdT, BTreeIndex.runOps_saveTemp_done hn]
  have hlT : Live s dT m := by
    have := htmp s.data.saveTemp.1.length
    rwa [List.take_length, ← hdT] at this
  rcases hres : s.data.saveTemp.2 with e | u
  · rw [checkpoint_ops_error hres]
    refine ⟨hdT ▸ hlT, fun k d' _ hc => (htmp k).recoverable.crashed hc⟩
  · rw [checkpoint_ops_ok hres, ← hdT]
    simp only
    obtain ⟨file, hfileT, hload⟩ := BTreeIndex.runOps_saveTemp_tmp (d := d) hl.data hres
    have hfile : Loadable file m := ⟨s.data, hload, hl.data⟩
    rw [← hdT] at hfileT
    obtain ⟨base, L, hsnap, hL, hw, hm⟩ := hlT.wal
    have hm' : applyCommands m L = m := by
      rw [← hm]; exact applyCommands_idem hsnap.sorted L
    obtain ⟨hPw, hPp, -⟩ := publish_done hfileT
    have hPrec : ∀ k, ¬ (content dT .pages = none ∧ content dT .bak ≠ none ∧ k = 1) →
        Recoverable (dT.runOps ((publishOps (dT .pages).isSome).take k)) m := fun k hk =>
      publish_spec hL hw (settled_eq (hlT.settled .pages (by decide)))
        (settled_eq (hlT.settled .bak (by decide))) hfileT hsnap hm hfile hm' hk
    obtain ⟨dP, hdP⟩ : ∃ dP, dP = dT.runOps (publishOps (dT .pages).isSome) := ⟨_, rfl⟩
    rw [← hdP] at hPw hPp
    have hPset : ∀ n, n ≠ .tmp → Settled dP n := by
      have := (hPrec (publishOps (dT .pages).isSome).length (by
        simp only [publishOps, BTreeIndex.publishSnapshot]
        cases (dT .pages).isSome <;> simp)).settled
      rwa [List.take_length, ← hdP] at this
    obtain ⟨hTlive, hTcrash⟩ := truncateOps_spec hl.data hPset hPp hfile hL (hPw.trans hw) hm'
    refine ⟨?_, fun k d' hbad hc => ?_⟩
    · rw [Disk.runOps_append, Disk.runOps_append, ← hdT, ← hdP]
      exact hTlive
    · -- in which of the three parts the crash comes
      rw [List.append_assoc, List.take_append, Disk.runOps_append] at hc
      by_cases h1 : k ≤ s.data.saveTemp.1.length
      · rw [Nat.sub_eq_zero_of_le h1, List.take_zero, Disk.runOps_nil] at hc
        exact (htmp k).recoverable.crashed hc
      · rw [List.take_of_length_le (by omega), ← hdT, List.take_append, Disk.runOps_append] at hc
        obtain ⟨j, hj⟩ : ∃ j, j = k - s.data.saveTemp.1.length := ⟨_, rfl⟩
        rw [← hj] at hc
        by_cases h2 : j ≤ (publishOps (dT .pages).isSome).length
        · rw [Nat.sub_eq_zero_of_le h2, List.take_zero, Disk.runOps_nil] at hc
          refine (hPrec j ?_).crashed hc
          rintro ⟨hp, hb, hj1⟩
          refine hbad ⟨?_, ?_, trivial, by omega⟩
          · rw [← hother .pages (by decide)]
            simpa [content] using hp
          · rw [← hother .bak (by decide)]
            simpa [content] using hb
        · rw [List.take_of_length_le (by omega), ← hdP] at hc
          exact hTcrash _ d' hc

end Checkpoint

end Store

end NutDb
