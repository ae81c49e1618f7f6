/-
  Batches that are rejected.

  `apply_batch` appends the records of a batch one by one and stops at the first
  one that the log rejects.  The records before it stay in the log although the
  store in memory does not have them, so the two may differ from then on:
  `Backed s d m r` is a store with the map `m` on files from which the map `r` is
  recovered, and `Firm d` says that a crash, too, leaves files from which
  something is recovered.

  `rejected_batch_iff`: a rejected batch leaves no trace, now or after later
  calls, exactly if it has a checkpoint in it or the commands before the first
  long one leave the map in the files as it is.
-/
import NutDb.StoreFaults
import NutDb.Lib.Text

namespace NutDb

open Lib BTree

namespace Store

/-! ## States and calls -/

/-- The calls, one after the other. -/
def calls : List Call → Disk FileName → Store → Disk FileName × Store
  | [], d, s => (d, s)
  | call :: rest, d, s => calls rest (d.runOps (call.run s d).ops) (call.run s d).store

/-- The states that are reached without I/O faults: by opening, any calls, crashes at any point, and
    ends of the process that lose nothing. -/
inductive Reached : System → Prop
  | start : Reached initial
  | step {sys l sys'} : Reached sys → Step sys l sys' → Reached sys'
  | closed {d s} : Reached ⟨d, some s⟩ → Reached ⟨ended d, none⟩

/-- Calling `apply_batch` makes no difference: neither to the store nor to what is recovered from the
    files, whatever calls come later. -/
def NoTrace (d : Disk FileName) (s : Store) (commands : List Command) : Prop :=
  ∀ later : List Call,
    (calls later (d.runOps (s.applyBatch commands).ops) (s.applyBatch commands).store).2 =
      (calls later d s).2 ∧
    ∀ m, Recovers m (calls later (d.runOps (s.applyBatch commands).ops) (s.applyBatch commands).store).1 ↔
      Recovers m (calls later d s).1

/-- The commands before the first one that the log rejects. -/
def accepted (commands : List Command) : List Command :=
  commands.takeWhile fun command => Wal.Fits command.encode

/-! ## What the files hold -/

/-- A store with the map `m`, on files from which the map `r` is recovered. -/
structure Backed (s : Store) (d : Disk FileName) (m r : List (String × String)) : Prop where
  data : s.data.Represents m
  files : ∃ base cs, Snap (content d .pages) (content d .bak) base ∧ (∀ c ∈ cs, Wal.Fits c.encode) ∧
    content d .wal = some (Wal.frames (cs.map Command.encode)) ∧ applyCommands base cs = r

section Backed
variable {s : Store} {d d' : Disk FileName} {m r : List (String × String)}

theorem Live.backed (h : Live s d m) : Backed s d m m := by
  obtain ⟨base, cs, hsnap, hfits, hw, hm⟩ := h.wal
  refine ⟨h.data, base, cs, hsnap, hfits, ?_, hm⟩
  rw [content, hw]
  rfl

theorem Backed.recoverable (h : Backed s d m r) : Recoverable (ended d) r := by
  obtain ⟨base, cs, hsnap, hfits, hw, hr⟩ := h.files
  refine ⟨fun n _ => settled_ended d n, base, cs, [], ?_, ⟨hfits, ?_, Wal.not_startsWithFrame_nil⟩, hr⟩
  · rw [content_ended, content_ended]
    exact hsnap
  · rw [content_ended, hw]
    simp

theorem recovers_unique {m m' : List (String × String)} (h : Recovers m d) (h' : Recovers m' d) : m = m' := by
  obtain ⟨ops, s, hopen, hm⟩ := h
  obtain ⟨ops', s', hopen', hm'⟩ := h'
  rw [hopen] at hopen'
  cases hopen'
  exact Except.ok.inj (hm.symm.trans hm')

theorem Backed.recovers (h : Backed s d m r) : Recovers r d := by
  obtain ⟨ops, s', hopen, hlive, -⟩ := open_spec h.recoverable
  exact ⟨ops, s', hopen, BTreeIndex.entries_spec hlive.data⟩

theorem Backed.recovers_eq_iff (h : Backed s d m r) (m' : List (String × String)) : Recovers m' d ↔ m' = r :=
  ⟨fun h' => recovers_unique h' h.recovers, fun h' => h' ▸ h.recovers⟩

/-- Records that are appended to the log. -/
theorem Backed.writes {ops : List (DiskOp FileName)} {cs : List Command} (h : Backed s d m r)
    (hops : WritesLog ops (cs, [])) (hfits : ∀ c ∈ cs, Wal.Fits c.encode) {s' : Store}
    {m' : List (String × String)} (hdata : s'.data.Represents m') :
    Backed s' (d.runOps ops) m' (applyCommands r cs) := by
  obtain ⟨base, L, hsnap, hL, hw, hr⟩ := h.files
  obtain ⟨hother, hwal⟩ := hops d
  obtain ⟨f, hf, hbytes⟩ := Option.map_eq_some_iff.1 hw
  obtain ⟨g, hg, hgbytes⟩ := hwal f hf
  refine ⟨hdata, base, L ++ cs, ?_, ?_, ?_, ?_⟩
  · rw [content, content, hother .pages (by decide), hother .bak (by decide)]
    exact hsnap
  · intro c hc
    rcases List.mem_append.1 hc with hc | hc
    · exact hL c hc
    · exact hfits c hc
  · rw [content, hg, Option.map_some, hgbytes, hbytes, List.map_append, Wal.frames_append, List.append_nil]
  · rw [← hr, applyCommands, applyCommands, applyCommands, List.foldl_append]

/-- A mutation without faults writes whole records. -/
theorem written_whole (mutation : Mutation) :
    (mutation.written none).2 = [] ∧
      (.checkpoint ∉ mutation.commands → (mutation.written none).1 = accepted mutation.commands) := by
  have hall : ∀ cs, writtenAll none cs = (accepted cs, []) := by
    intro cs
    induction cs with
    | nil => rfl
    | cons c cs ih =>
      by_cases hfit : Wal.Fits c.encode
      · simp [writtenAll, accepted, hfit, cut, ih]
      · simp [writtenAll, accepted, hfit]
  unfold Mutation.written
  split_ifs with hcp
  · refine ⟨rfl, fun hno => absurd ?_ hno⟩
    simpa using hcp
  · rw [hall]
    exact ⟨rfl, fun _ => rfl⟩

/-- The files after a checkpoint whose snapshot can be written. -/
theorem Backed.checkpoint_files (h : Backed s d m r) (hsave : s.data.saveTemp.2 = .ok ()) :
    content (d.runOps (s.checkpoint d).ops) .wal = some [] ∧
      ∃ file, content (d.runOps (s.checkpoint d).ops) .pages = some file ∧ Loadable file m := by
  obtain ⟨base, L, -, -, hw, -⟩ := h.files
  obtain ⟨f, hf, -⟩ := Option.map_eq_some_iff.1 hw
  obtain ⟨dT, hdT⟩ : ∃ dT, dT = d.runOps s.data.saveTemp.1 := ⟨_, rfl⟩
  have hwal : dT .wal = some f := by
    rw [hdT, BTreeIndex.runOps_saveTemp_done (by decide), hf]
  obtain ⟨file, htmp, hload⟩ := BTreeIndex.runOps_saveTemp_tmp (d := d) h.data hsave
  rw [← hdT] at htmp
  rw [checkpoint_ops_ok hsave, Disk.runOps_append, Disk.runOps_append, ← hdT]
  refine ⟨?_, file, ?_, s.data, hload, h.data⟩
  · cases hp : dT .pages <;>
      simp [content, publishOps, BTreeIndex.publishSnapshot, truncateOps, DiskOp.run, Disk.set, htmp, hp, hwal,
        FileOp.run, File.settled, setLen]
  · cases hp : dT .pages <;>
      simp [content, publishOps, BTreeIndex.publishSnapshot, truncateOps, DiskOp.run, Disk.set, htmp, hp,
        File.settled]

/-- A checkpoint whose snapshot can be written: the files have the map in memory afterwards. -/
theorem Backed.checkpoint (h : Backed s d m r) (hsave : s.data.saveTemp.2 = .ok ()) :
    Backed s (d.runOps (s.checkpoint d).ops) m m := by
  obtain ⟨hwal, file, hpages, hload⟩ := h.checkpoint_files hsave
  refine ⟨h.data, m, [], ?_, by simp, hwal, rfl⟩
  rw [hpages]
  exact .pages hload

/-- **A call** does the same to the store, and to what is recovered from the files, whatever else the
    files hold. -/
theorem call_backed (hs : s.data.Represents m) (call : Call) :
    ∃ s' m', ∃ f : List (String × String) → List (String × String), ∀ d r, Backed s d m r →
      (call.run s d).store = s' ∧ Backed s' (d.runOps (call.run s d).ops) m' (f r) := by
  have hmutation : ∀ mutation : Mutation, ∃ s' m', ∃ f : List (String × String) → List (String × String),
      ∀ d r, Backed s d m r → (mutation.call.run s d).store = s' ∧
        Backed s' (d.runOps (mutation.call.run s d).ops) m' (f r) := by
    intro mutation
    obtain ⟨hops, -, m', hm'⟩ := runOr_spec none hs mutation
    refine ⟨(mutation.runOr none s).store, m', fun r => applyCommands r (mutation.written none).1,
      fun d r h => ?_⟩
    rw [← runOr_sound s d mutation]
    have hwhole : mutation.written none = ((mutation.written none).1, []) :=
      Prod.ext rfl (written_whole mutation).1
    rw [hwhole] at hops
    exact ⟨rfl, h.writes hops (written_fits mutation none).1 hm'⟩
  cases call with
  | set key value => exact hmutation (.set key value)
  | delete key => exact hmutation (.delete key)
  | applyBatch commands => exact hmutation (.applyBatch commands)
  | checkpoint =>
    rcases hsave : s.data.saveTemp.2 with e | u
    · refine ⟨s, m, id, fun d r h => ?_⟩
      rw [Call.run, checkpoint_ops_error hsave]
      have hother : ∀ n, n ≠ .tmp → d.runOps s.data.saveTemp.1 n = d n := fun n hn =>
        BTreeIndex.runOps_saveTemp_done hn
      obtain ⟨base, cs, hsnap, hfits, hw, hr⟩ := h.files
      refine ⟨rfl, h.data, base, cs, ?_, hfits, ?_, hr⟩
      · rw [content, content, hother .pages (by decide), hother .bak (by decide)]
        exact hsnap
      · rw [content, hother .wal (by decide)]
        exact hw
    · refine ⟨s, m, fun _ => m, fun d r h => ⟨?_, h.checkpoint hsave⟩⟩
      rw [Call.run, checkpoint_ops_ok hsave]

/-- **All later calls**: two directories from which the same map is recovered are the same to them. -/
theorem calls_backed (later : List Call) (h : Backed s d m r) (h' : Backed s d' m r) :
    (calls later d' s).2 = (calls later d s).2 ∧
      ∀ m', Recovers m' (calls later d' s).1 ↔ Recovers m' (calls later d s).1 := by
  induction later generalizing s d d' m r with
  | nil => exact ⟨rfl, fun m' => (h'.recovers_eq_iff m').trans (h.recovers_eq_iff m').symm⟩
  | cons call later ih =>
    obtain ⟨s', m', f, hcall⟩ := call_backed h.data call
    obtain ⟨hs, hnext⟩ := hcall d r h
    obtain ⟨hs', hnext'⟩ := hcall d' r h'
    simp only [calls, hs, hs']
    exact ih hnext hnext'

end Backed

/-! ## What a crash leaves -/

/-- Whole records. -/
def Whole (b : Bytes) : Prop :=
  ∃ cs : List Command, (∀ c ∈ cs, Wal.Fits c.encode) ∧ b = Wal.frames (cs.map Command.encode)

/-- A file of whole records, of which a crash leaves a part of such a file. -/
structure OfRecords (f : File) : Prop where
  whole : Whole f.bytes
  left : ∀ b ∈ f.left, ∃ w, Whole w ∧ b <+: w

/-- A directory on which a store can be opened after a crash. -/
structure Firm (d : Disk FileName) : Prop where
  pages : Settled d .pages
  bak : Settled d .bak
  snap : ∃ base, Snap (content d .pages) (content d .bak) base
  wal : ∃ f, d .wal = some f ∧ OfRecords f

/-- The operations of appends and checkpoints on the log. -/
inductive LogOp : DiskOp FileName → Prop
  | append {c : Command} : Wal.Fits c.encode → LogOp (.file .wal (.append (Wal.frame c.encode)))
  | clear : LogOp (.file .wal (.setLen 0))
  | sync : LogOp (.file .wal .sync)

section Firm
variable {s : Store} {d d' : Disk FileName} {m : List (String × String)} {f : File}

theorem whole_nil : Whole [] := ⟨[], by simp, rfl⟩

theorem Whole.append {b : Bytes} {c : Command} (h : Whole b) (hc : Wal.Fits c.encode) :
    Whole (b ++ Wal.frame c.encode) := by
  obtain ⟨cs, hcs, rfl⟩ := h
  refine ⟨cs ++ [c], fun x hx => ?_, by simp⟩
  rcases List.mem_append.1 hx with hx | hx
  · exact hcs x hx
  · rw [List.mem_singleton.1 hx]
    exact hc

theorem ofRecords_settled {b : Bytes} (h : Whole b) : OfRecords (File.settled b) := by
  refine ⟨h, fun x hx => ⟨b, h, ?_⟩⟩
  rw [show x = b from hx]

theorem Live.firm (h : Live s d m) : Firm d := by
  obtain ⟨base, cs, hsnap, hfits, hw, -⟩ := h.wal
  exact ⟨h.settled .pages (by decide), h.settled .bak (by decide), ⟨base, hsnap⟩, _, hw,
    ofRecords_settled ⟨cs, hfits, rfl⟩⟩

theorem Firm.congr (h : Firm d) (hw : d' .wal = d .wal) (hp : d' .pages = d .pages) (hb : d' .bak = d .bak) :
    Firm d' := by
  obtain ⟨base, hsnap⟩ := h.snap
  refine ⟨settled_of_eq hp h.pages, settled_of_eq hb h.bak, ⟨base, ?_⟩, by rw [hw]; exact h.wal⟩
  rw [content, content, hp, hb]
  exact hsnap

/-- **A crash** leaves a directory from which something is recovered. -/
theorem Firm.crashed (h : Firm d) (hc : d.Crashed d') : ∃ r, Recoverable d' r := by
  obtain ⟨base, hsnap⟩ := h.snap
  obtain ⟨f, hf, -, hleft⟩ := h.wal
  have hcw := hc .wal
  rw [hf] at hcw
  obtain ⟨b, hb, hw⟩ := hcw
  obtain ⟨w, ⟨cs, hfits, rfl⟩, hpre⟩ := hleft b hb
  have hfits' : ∀ p ∈ cs.map Command.encode, Wal.Fits p := by
    intro p hp
    obtain ⟨c, hc, rfl⟩ := List.mem_map.1 hp
    exact hfits c hc
  obtain ⟨qs, rs, t, hsplit, hbt, ht, -⟩ := Wal.prefix_frames hfits' hpre
  obtain ⟨cs₁, cs₂, rfl, rfl, rfl⟩ := List.map_eq_append_iff.1 hsplit
  exact ⟨_, recoverable_of_wal h.pages h.bak hsnap (h.pages.crashed hc) (h.bak.crashed hc) hw
    ⟨fun c hc => hfits c (by simp [hc]), hbt, ht⟩ rfl⟩

/-- One operation on the log. -/
theorem Firm.logOp {op : DiskOp FileName} (h : Firm d) (hop : LogOp op) : Firm (op.run d) := by
  obtain ⟨f, hf, hrec⟩ := h.wal
  have hnext : ∀ fop : FileOp, OfRecords (fop.run f) → Firm ((DiskOp.file .wal fop).run d) := by
    intro fop hnext
    have hother : ∀ n, n ≠ .wal → (DiskOp.file .wal fop).run d n = d n := fun n hn => Disk.set_other d _ hn
    have hp := hother .pages (by decide)
    have hb := hother .bak (by decide)
    obtain ⟨base, hsnap⟩ := h.snap
    refine ⟨settled_of_eq hp h.pages, settled_of_eq hb h.bak, ⟨base, ?_⟩, fop.run f, ?_, hnext⟩
    · rw [content, content, hp, hb]
      exact hsnap
    · rw [DiskOp.run, Disk.set_self, hf, Option.map_some]
  cases hop with
  | append hfits =>
    refine hnext _ ⟨hrec.whole.append hfits, fun b hb => ?_⟩
    rcases hb with hb | ⟨-, hb⟩
    · exact hrec.left b hb
    · exact ⟨_, hrec.whole.append hfits, hb⟩
  | clear =>
    have hnil : setLen f.bytes 0 = [] := by simp [setLen]
    refine hnext _ ⟨?_, fun b hb => ?_⟩
    · rw [FileOp.run, hnil]
      exact whole_nil
    · rcases hb with hb | hb
      · exact hrec.left b hb
      · rw [show b = [] from hb.trans hnil]
        exact ⟨[], whole_nil, List.prefix_refl []⟩
  | sync => exact hnext _ (ofRecords_settled hrec.whole)

theorem Firm.logOps {ops : List (DiskOp FileName)} (h : Firm d) (hops : ∀ op ∈ ops, LogOp op) :
    Firm (d.runOps ops) := by
  induction ops generalizing d with
  | nil => exact h
  | cons op ops ih => exact ih (h.logOp (hops op (by simp))) fun op' hop' => hops op' (by simp [hop'])

theorem logOp_append {p : Bytes} {c : Command} (h : Wal.append c.encode = .ok p) :
    LogOp (.file .wal (.append p)) := by
  obtain ⟨hfits, rfl⟩ := Wal.append_eq_ok.1 h
  exact .append hfits

theorem apply_logOps (c : Command) : ∀ op ∈ (s.apply c).ops, LogOp op := by
  unfold apply
  rcases happ : Wal.append c.encode with e | record
  · simp
  · have hpair : ∀ op ∈ [DiskOp.file FileName.wal (.append record), .file .wal .sync], LogOp op := by
      simpa using ⟨logOp_append happ, LogOp.sync⟩
    rcases hmem : applyMemory s.data c with e | data
    · exact hpair
    · exact hpair

theorem appendAll_logOps (cs : List Command) : ∀ op ∈ (appendAll cs).1, LogOp op := by
  induction cs with
  | nil => simp [appendAll]
  | cons c cs ih =>
    unfold appendAll
    rcases happ : Wal.append c.encode with e | record
    · simp
    · simpa using ⟨logOp_append happ, ih⟩

theorem applyBatch_logOps (cs : List Command) : ∀ op ∈ (s.applyBatch cs).ops, LogOp op := by
  unfold applyBatch
  split_ifs
  · simp
  · have hops := appendAll_logOps cs
    rcases hall : appendAll cs with ⟨ops, e | u⟩
    · rw [hall] at hops
      exact hops
    · rw [hall] at hops
      have hsync : ∀ op ∈ ops ++ [.file .wal .sync], LogOp op := by
        intro op hop
        rcases List.mem_append.1 hop with hop | hop
        · exact hops op hop
        · rw [List.mem_singleton.1 hop]
          exact .sync
      rcases hmem : cs.foldlM applyMemory s.data with e | data
      · exact hsync
      · exact hsync

theorem truncateOps_logOps : ∀ op ∈ truncateOps, LogOp op := by
  simpa [truncateOps] using ⟨LogOp.append Command.fits_checkpoint, LogOp.sync, LogOp.clear, LogOp.sync⟩

/-- **Publishing a snapshot**, cut at any point: also where both snapshots are gone. -/
theorem Firm.publish {file : Bytes} (h : Firm d) (ht : d .tmp = some (File.settled file))
    (hfile : Loadable file m) (k : ℕ) : Firm (d.runOps ((publishOps (d .pages).isSome).take k)) := by
  obtain ⟨base, hsnap⟩ := h.snap
  obtain ⟨p', b', hw, hp, hb, hcases⟩ := publish_files (settled_eq h.pages) (settled_eq h.bak) ht hsnap k
  refine ⟨settled_of_map hp, settled_of_map hb, ?_, by rw [hw]; exact h.wal⟩
  rw [content_of_map hp, content_of_map hb]
  rcases hcases with rfl | hsnap' | ⟨-, -, -, rfl, rfl⟩
  · exact ⟨m, .pages hfile⟩
  · exact ⟨base, hsnap'⟩
  · exact ⟨[], .none⟩

/-- **A checkpoint**, cut at any point. -/
theorem Firm.checkpoint (h : Firm d) (hs : s.data.Represents m) (k : ℕ) :
    Firm (d.runOps ((s.checkpoint d).ops.take k)) := by
  have htmp : ∀ j, Firm (d.runOps (s.data.saveTemp.1.take j)) := fun j =>
    h.congr (BTreeIndex.runOps_saveTemp_other (by decide) j) (BTreeIndex.runOps_saveTemp_other (by decide) j)
      (BTreeIndex.runOps_saveTemp_other (by decide) j)
  rcases hsave : s.data.saveTemp.2 with e | u
  · rw [checkpoint_ops_error hsave]
    exact htmp k
  · by_cases hk : k ≤ s.data.saveTemp.1.length
    · rw [checkpoint_ops_ok hsave, List.append_assoc, List.take_append_of_le_length hk]
      exact htmp k
    · obtain ⟨j, rfl⟩ : ∃ j, k = s.data.saveTemp.1.length + j := ⟨k - s.data.saveTemp.1.length, by omega⟩
      rw [runOps_checkpoint_take hsave j]
      have hT := htmp s.data.saveTemp.1.length
      rw [List.take_length] at hT
      obtain ⟨file, hfile, hload⟩ := BTreeIndex.runOps_saveTemp_tmp (d := d) hs hsave
      have hp : d.runOps s.data.saveTemp.1 .pages = d .pages := BTreeIndex.runOps_saveTemp_done (by decide)
      rw [List.take_append, Disk.runOps_append, ← hp]
      exact (hT.publish hfile ⟨s.data, hload, hs⟩ j).logOps fun op hop =>
        truncateOps_logOps op (List.mem_of_mem_take hop)

/-- **A call**, cut at any point. -/
theorem Firm.call (h : Firm d) (hs : s.data.Represents m) (call : Call) (k : ℕ) :
    Firm (d.runOps ((call.run s d).ops.take k)) := by
  have hlog : (∀ op ∈ (call.run s d).ops, LogOp op) → Firm (d.runOps ((call.run s d).ops.take k)) :=
    fun hops => h.logOps fun op hop => hops op (List.mem_of_mem_take hop)
  cases call with
  | set key value => exact hlog (apply_logOps _)
  | delete key => exact hlog (apply_logOps _)
  | applyBatch commands => exact hlog (applyBatch_logOps commands)
  | checkpoint => exact h.checkpoint hs k

/-- The invariant of reached states. -/
def Standby (sys : System) : Prop :=
  match sys.store with
  | some s => Firm sys.disk ∧ ∃ m r, Backed s sys.disk m r
  | none => ∃ r, Recoverable sys.disk r

theorem Standby.step {sys sys' : System} {l : Label} (h : Standby sys) (hstep : Step sys l sys') :
    Standby sys' := by
  cases hstep with
  | opened hopen =>
    obtain ⟨r, hr⟩ := h
    obtain ⟨ops, s, hopen', hlive, -⟩ := open_spec hr
    rw [hopen] at hopen'
    cases hopen'
    exact ⟨hlive.firm, r, r, hlive.backed⟩
  | openFailed hopen =>
    obtain ⟨r, hr⟩ := h
    obtain ⟨ops, s, hopen', -⟩ := open_spec hr
    rw [hopen] at hopen'
    cases hopen'
  | openCrash hc =>
    obtain ⟨r, hr⟩ := h
    obtain ⟨ops, s, hopen, -, hcrash⟩ := open_spec hr
    rw [hopen] at hc
    exact ⟨r, hcrash _ _ hc⟩
  | @called d s call =>
    obtain ⟨hfirm, m, r, hback⟩ := h
    obtain ⟨s', m', f, hcall⟩ := call_backed hback.data call
    obtain ⟨hs, hnext⟩ := hcall _ r hback
    have hfirm' := hfirm.call hback.data call (call.run s d).ops.length
    rw [List.take_length] at hfirm'
    rw [hs]
    exact ⟨hfirm', m', f r, hnext⟩
  | callCrash call hc =>
    obtain ⟨hfirm, m, r, hback⟩ := h
    exact (hfirm.call hback.data call _).crashed hc
  | @crash d d' s hc =>
    rcases s with _ | s
    · obtain ⟨r, hr⟩ := h
      exact ⟨r, hr.crashed hc⟩
    · obtain ⟨hfirm, -⟩ := h
      exact hfirm.crashed hc

theorem reached_standby {sys : System} (h : Reached sys) : Standby sys := by
  induction h with
  | start => exact ⟨[], inv_initial⟩
  | step _ hstep ih => exact ih.step hstep
  | closed _ ih =>
    obtain ⟨-, m, r, hback⟩ := ih
    exact ⟨r, hback.recoverable⟩

end Firm

/-! ## Rejected batches -/

section Rejected
variable {s : Store} {d : Disk FileName} {m r : List (String × String)} {commands : List Command} {e : Fault}

/-- A rejected batch leaves the store as it is, and its first records in the log. -/
theorem applyBatch_rejected (h : Backed s d m r) (herr : (s.applyBatch commands).result = .error e) :
    (s.applyBatch commands).store = s ∧
      ((.checkpoint ∈ commands ∧ (s.applyBatch commands).ops = []) ∨
        (.checkpoint ∉ commands ∧
          Backed s (d.runOps (s.applyBatch commands).ops) m (applyCommands r (accepted commands)))) := by
  have hrun := runOr_sound s d (.applyBatch commands)
  obtain ⟨hops, -, m', hm'⟩ := runOr_spec none h.data (.applyBatch commands)
  rw [hrun] at hops
  simp only [Mutation.call, Call.run] at hops
  have hstore : (s.applyBatch commands).store = s := by
    unfold applyBatch at herr ⊢
    split_ifs at herr ⊢ with hcp
    · rfl
    · obtain ⟨data, hdata, -⟩ := foldlM_applyMemory commands h.data
      rcases hall : appendAll commands with ⟨ops, e' | u⟩
      · rfl
      · rw [hall, hdata] at herr
        cases herr
  refine ⟨hstore, ?_⟩
  by_cases hcp : .checkpoint ∈ commands
  · refine Or.inl ⟨hcp, ?_⟩
    have hany : (commands.any fun command => command == .checkpoint) = true := by simpa using hcp
    rw [applyBatch, if_pos hany]
  · obtain ⟨hpart, hwritten⟩ := written_whole (.applyBatch commands)
    have hwhole : (Mutation.applyBatch commands).written none = (accepted commands, []) :=
      Prod.ext (hwritten hcp) hpart
    rw [hwhole] at hops
    refine Or.inr ⟨hcp, h.writes hops (fun c hc => ?_) h.data⟩
    have hfits := List.mem_takeWhile_imp hc
    exact of_decide_eq_true hfits

theorem noTrace_iff (h : Backed s d m r) (herr : (s.applyBatch commands).result = .error e) :
    NoTrace d s commands ↔ .checkpoint ∈ commands ∨ applyCommands r (accepted commands) = r := by
  obtain ⟨hstore, ⟨hcp, hops⟩ | ⟨hcp, hafter⟩⟩ := applyBatch_rejected h herr
  · refine iff_of_true (fun later => ?_) (Or.inl hcp)
    rw [hstore, hops]
    exact ⟨rfl, fun _ => Iff.rfl⟩
  · constructor
    · intro hno
      -- no later calls
      have hrec := ((hno []).2 r).2 h.recovers
      rw [hstore] at hrec
      exact Or.inr ((hafter.recovers_eq_iff r).1 hrec).symm
    · rintro (hcp' | hsame) later
      · exact absurd hcp' hcp
      · rw [hsame] at hafter
        rw [hstore]
        exact calls_backed later h hafter

end Rejected

/-- **Rejected batches.**  In every state that is reached without I/O faults, a batch that returns an
    error leaves no trace if and only if it has a checkpoint in it, or the commands before the first
    one that the log rejects leave the map in the files as it is. -/
theorem rejected_batch_iff {d : Disk FileName} {s : Store} (hreach : Reached ⟨d, some s⟩)
    {commands : List Command} {e : Fault} (herr : (s.applyBatch commands).result = .error e)
    {r : List (String × String)} (hr : Recovers r d) :
    NoTrace d s commands ↔ .checkpoint ∈ commands ∨ applyCommands r (accepted commands) = r := by
  obtain ⟨-, m, r', h⟩ := reached_standby hreach
  obtain rfl := recovers_unique hr h.recovers
  exact noTrace_iff h herr

/-! ## A batch with a long key -/

section Long

/-- A key whose record the log rejects. -/
@[irreducible] def longKey : String := String.ofList (List.replicate (2 ^ 32) 'a')

theorem length_utf8_replicate (n : ℕ) : (utf8 (String.ofList (List.replicate n 'a'))).length = n := by
  have hascii : ∀ c ∈ List.replicate n 'a', c.toNat < 128 := by
    intro c hc
    rw [List.eq_of_mem_replicate hc]
    decide
  rw [utf8_ascii hascii, List.length_map, List.length_replicate]

theorem not_fits_delete {key : String} (h : 2 ^ 32 ≤ (utf8 key).length) :
    ¬ Wal.Fits (Command.delete key).encode := by
  rw [Wal.Fits, Command.encode, List.length_cons, Command.length_pushBytes]
  omega

theorem not_fits_longKey : ¬ Wal.Fits (Command.delete longKey).encode := by
  refine not_fits_delete (Eq.ge ?_)
  unfold longKey
  exact length_utf8_replicate _

theorem newStore_reached : Reached ⟨files (some []) none none none, some newStore⟩ := by
  have hopen : openStore initial.disk = ([.create .wal], .ok newStore) := rfl
  have hreach : Reached ⟨initial.disk.runOps [.create .wal], some newStore⟩ :=
    .step .start (.opened hopen)
  have hdisk : initial.disk.runOps [.create .wal] = files (some []) none none none := by
    funext n
    cases n <;> rfl
  rwa [hdisk] at hreach

/-- A batch that is given up at its second command. -/
theorem applyBatch_second {c c' : Command} (hfit : Wal.Fits c.encode) (hlong : ¬ Wal.Fits c'.encode)
    (hc : .checkpoint ∉ [c, c']) :
    (newStore.applyBatch [c, c']).result = Res.fail .invalidInput "wal: record exceeds 4 GiB" ∧
      accepted [c, c'] = [c] := by
  constructor
  · have hany : ¬ ([c, c'].any fun command => command == .checkpoint) = true := by
      rw [List.any_eq_true]
      rintro ⟨x, hx, hxc⟩
      exact hc (eq_of_beq hxc ▸ hx)
    have happ : appendAll [c'] = ([], Res.fail .invalidInput "wal: record exceeds 4 GiB") := by
      simp only [appendAll, Wal.append, if_neg hlong]
      rfl
    rw [applyBatch, if_neg hany, appendAll, Wal.append_of_fits hfit]
    simp only [happ]
    rfl
  · simp [accepted, hfit, hlong]

theorem rejected_batch_iff_absent : ∃ d, Reached ⟨d, some newStore⟩ ∧
    NoTrace d newStore [.delete "a", .delete longKey] := by
  have hfit : Wal.Fits (Command.delete "a").encode := by decide +kernel
  obtain ⟨herr, haccepted⟩ := applyBatch_second hfit not_fits_longKey (by simp)
  refine ⟨_, newStore_reached, (rejected_batch_iff newStore_reached herr newStore_live.backed.recovers).2 ?_⟩
  rw [haccepted]
  exact Or.inr rfl

/-- The first command of a batch that returned an error is recovered. -/
theorem not_noTrace_longKey : ∃ d e, Reached ⟨d, some newStore⟩ ∧
    (newStore.applyBatch [.set "a" "1", .delete longKey]).result = .error e ∧
    ¬ NoTrace d newStore [.set "a" "1", .delete longKey] := by
  have hfit : Wal.Fits (Command.set "a" "1").encode := by decide +kernel
  have hno : .checkpoint ∉ [Command.set "a" "1", .delete longKey] := by simp
  obtain ⟨herr, haccepted⟩ := applyBatch_second hfit not_fits_longKey hno
  refine ⟨_, _, newStore_reached, herr, fun h => ?_⟩
  rcases (noTrace_iff newStore_live.backed herr).1 h with hcp | hsame
  · exact hno hcp
  · rw [haccepted] at hsame
    cases hsame

end Long

end Store

end NutDb
