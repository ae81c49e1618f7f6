/-
  Logs that end in zeros.

  A crash may extend a log without persisting the data, so that zeros are found
  behind the last record.  Eight zeros are a whole record, since the checksum of
  nothing is zero: `replay` returns an empty payload, which no command and no
  transaction record has as its encoding, and opening fails.  Fewer zeros are a
  torn header, which opening repairs (`zero_tail_iff`).
-/
import NutDb.StoreCheckpoint
import NutDb.Mvcc.Recovery

namespace NutDb

open Lib BTree

/-! ## Zeros as frames -/

namespace Wal

theorem frame_nil : frame [] = List.replicate 8 0 := by decide +kernel

/-- Zeros are empty records and a rest that is shorter than a header. -/
theorem replicate_zero (z : ℕ) : List.replicate z (0 : UInt8) =
    frames (List.replicate (z / 8) []) ++ List.replicate (z % 8) 0 := by
  have hframes : ∀ n, frames (List.replicate n []) = List.replicate (8 * n) 0 := by
    intro n
    induction n with
    | zero => rfl
    | succ n ih =>
      rw [List.replicate_succ, frames_cons, ih, frame_nil, ← List.replicate_add]
      congr 1
      omega
  rw [hframes, ← List.replicate_add, Nat.div_add_mod]

theorem not_startsWithFrame_short {t : Bytes} (h : t.length < 8) : ¬ StartsWithFrame t := by
  rintro ⟨p, rest, -, rfl⟩
  rw [List.length_append, length_frame, HEADER_LEN] at h
  omega

/-- **Replaying a log that ends in zeros**: eight of them are an empty record. -/
theorem replay_zeros {ps : List Bytes} (hps : ∀ p ∈ ps, Fits p) (z : ℕ) :
    (replay (frames ps ++ List.replicate z 0)).records = ps ++ List.replicate (z / 8) [] := by
  have hfits : ∀ p ∈ ps ++ List.replicate (z / 8) [], Fits p := by
    intro p hp
    rcases List.mem_append.1 hp with hp | hp
    · exact hps p hp
    · rw [List.eq_of_mem_replicate hp]
      decide
  have hrest : ¬ StartsWithFrame (List.replicate (z % 8) 0) :=
    not_startsWithFrame_short (by rw [List.length_replicate]; omega)
  rw [replicate_zero, ← List.append_assoc, ← frames_append, replay_eq hfits hrest]

/-- Fewer zeros are repaired. -/
theorem replay_few_zeros {ps : List Bytes} (hps : ∀ p ∈ ps, Fits p) {z : ℕ} (hz : z < 8) :
    replay (frames ps ++ List.replicate z 0) =
      ⟨ps, decide (List.replicate z (0 : UInt8) ≠ []), (frames ps).length⟩ :=
  replay_eq hps (not_startsWithFrame_short (by simpa using hz))

end Wal

/-- The directory in which a file was extended by zeros. -/
def extended {N : Type} [DecidableEq N] (d : Disk N) (n : N) (z : ℕ) : Disk N :=
  d.set n ((d n).map fun f => File.settled (f.bytes ++ List.replicate z 0))

/-! ## The store -/

namespace Store

/-- All calls return without an error. -/
def AllOk : List Call → Disk FileName → Store → Prop
  | [], _, _ => True
  | call :: rest, d, s => (call.run s d).result = .ok () ∧
      AllOk rest (d.runOps (call.run s d).ops) (call.run s d).store

/-- The store is opened with the given map, and what later calls acknowledge is recovered by the next
    opening. -/
def Reopens (d : Disk FileName) (m : List (String × String)) : Prop :=
  ∃ ops s, openStore d = (ops, .ok s) ∧ s.data.entries = .ok m ∧
    ∀ later : List Call, AllOk later (d.runOps ops) s →
      Recovers (applyCommands m (later.flatMap Call.commands)) (calls later (d.runOps ops) s).1

section Store
variable {d : Disk FileName} {s : Store} {m : List (String × String)}

/-- **Later calls** that are acknowledged. -/
theorem Live.calls (hl : Live s d m) {later : List Call} (hok : AllOk later d s) :
    Live (calls later d s).2 (calls later d s).1 (applyCommands m (later.flatMap Call.commands)) := by
  induction later generalizing d s m with
  | nil => exact hl
  | cons call later ih =>
    have hallowed := allowed_of_acknowledged (Step.called (d := d) (s := s) call) (by rw [hok.1]; trivial)
    obtain ⟨cs, hcs, -, hnext⟩ := called_spec hl call hallowed
    rw [hcs hok.1] at hnext
    have hrest := ih hnext hok.2
    rw [List.flatMap_cons, applyCommands, List.foldl_append]
    exact hrest

theorem Recoverable.reopens (h : Recoverable d m) : Reopens d m := by
  obtain ⟨ops, s, hopen, hlive, -⟩ := open_spec h
  exact ⟨ops, s, hopen, BTreeIndex.entries_spec hlive.data, fun later hok => (hlive.calls hok).backed.recovers⟩

/-- **The store on a log that ends in zeros.** -/
theorem reopens_zeros_iff (hl : Live s d m) (z : ℕ) : Reopens (extended d .wal z) m ↔ z < 8 := by
  obtain ⟨base, cs, hsnap, hfits, hw, hm⟩ := hl.wal
  have hfits' : ∀ p ∈ cs.map Command.encode, Wal.Fits p := by
    intro p hp
    obtain ⟨c, hc, rfl⟩ := List.mem_map.1 hp
    exact hfits c hc
  have hwal : extended d .wal z .wal =
      some (File.settled (Wal.frames (cs.map Command.encode) ++ List.replicate z 0)) := by
    rw [extended, Disk.set_self, hw]
    rfl
  have hother : ∀ n, n ≠ .wal → extended d .wal z n = d n := fun n hn => Disk.set_other d _ hn
  constructor
  · rintro ⟨ops, s', hopen, -⟩
    by_contra hz
    have hrecords : (Wal.replayPath ((extended d .wal z .wal).map File.bytes)).records =
        cs.map Command.encode ++ [] :: List.replicate (z / 8 - 1) [] := by
      rw [hwal]
      simp only [Option.map_some, Wal.replayPath, File.settled, Wal.replay_zeros hfits']
      rw [← List.replicate_succ, Nat.sub_add_cancel (by omega)]
    rcases hload : BTreeIndex.load (extended d .wal z) with ⟨loadOps, e | data⟩
    · simp only [openStore, hload] at hopen
      cases hopen
    · obtain ⟨e, he⟩ : ∃ e, replayRecords data
          (cs.map Command.encode ++ [] :: List.replicate (z / 8 - 1) []) = .error e := by
        refine Res.foldlM_error ?_ _ _ _
        exact fun data => ⟨_, rfl⟩
      have hbind : ((.ok data : Res BTreeIndex).bind fun data => replayRecords data
          (Wal.replayPath ((extended d .wal z .wal).map File.bytes)).records) = .error e := by
        rw [hrecords]
        exact he
      simp only [openStore, hload, hbind] at hopen
      cases hopen
  · intro hz
    refine Recoverable.reopens (recoverable_of_wal (hl.settled _ (by decide)) (hl.settled _ (by decide)) hsnap
      (hother _ (by decide)) (hother _ (by decide)) hwal ⟨hfits, rfl, ?_⟩ hm)
    exact Wal.not_startsWithFrame_short (by simpa using hz)

end Store

end Store

/-! ## The transactional store -/

namespace Mvcc

/-- The store is opened on both directories with the same result, and leaves the same files. -/
def OpensAlike (d d' : Disk Unit) : Prop :=
  ∃ ops ops' inner, openStore d = (ops, .ok inner) ∧ openStore d' = (ops', .ok inner) ∧
    d'.runOps ops' = d.runOps ops

section Mvcc
variable {d : Disk Unit} {ps : List Bytes}

/-- **The transactional store on a log that ends in zeros.** -/
theorem opensAlike_zeros_iff (hps : ∀ p ∈ ps, Wal.Fits p) (hd : d () = some (File.settled (Wal.frames ps)))
    {ops : List (DiskOp Unit)} {inner : Inner} (hopen : openStore d = (ops, .ok inner)) (z : ℕ) :
    OpensAlike d (extended d () z) ↔ z < 8 := by
  have hlog : extended d () z () = some (File.settled (Wal.frames ps ++ List.replicate z 0)) := by
    rw [extended, Disk.set_self, hd]
    rfl
  constructor
  · rintro ⟨-, ops', inner', -, hopen', -⟩
    by_contra hz
    have hrecords : (Wal.replayPath ((extended d () z ()).map File.bytes)).records =
        ps ++ [] :: List.replicate (z / 8 - 1) [] := by
      rw [hlog]
      simp only [Option.map_some, Wal.replayPath, File.settled, Wal.replay_zeros hps]
      rw [← List.replicate_succ, Nat.sub_add_cancel (by omega)]
    obtain ⟨e, he⟩ : ∃ e, replayPayloads (ps ++ [] :: List.replicate (z / 8 - 1) []) = .error e := by
      refine Res.foldlM_error ?_ _ _ _
      exact fun r => ⟨_, rfl⟩
    simp only [openStore, hrecords, he] at hopen'
    cases hopen'
  · intro hz
    have hreplay : Wal.replayPath ((d ()).map File.bytes) = ⟨ps, false, (Wal.frames ps).length⟩ := by
      rw [hd]
      exact Wal.replay_frames hps
    have hreplay' : Wal.replayPath ((extended d () z ()).map File.bytes) =
        ⟨ps, decide (List.replicate z (0 : UInt8) ≠ []), (Wal.frames ps).length⟩ := by
      rw [hlog]
      exact Wal.replay_few_zeros hps hz
    unfold openStore at hopen
    rw [hreplay] at hopen
    rcases hr : replayPayloads ps with e | r
    · simp only [hr] at hopen
      cases hopen
    · rcases hnext : r.maxTxn.checkedAdd 1 with _ | next
      · simp only [hr, hnext] at hopen
        cases hopen
      · refine ⟨Wal.openOps () ⟨ps, false, (Wal.frames ps).length⟩,
          Wal.openOps () ⟨ps, decide (List.replicate z (0 : UInt8) ≠ []), (Wal.frames ps).length⟩,
          ⟨r.versions, [], next, r.commitTs⟩, ?_, ?_, ?_⟩
        · simp only [openStore, hreplay, hr, hnext]
        · simp only [openStore, hreplay', hr, hnext]
        · funext n
          cases n
          by_cases h0 : z = 0
          · subst h0
            simp [Wal.openOps, DiskOp.run, hd, hlog]
          · have hcut : setLen (Wal.frames ps ++ List.replicate z 0) (Wal.frames ps).length = Wal.frames ps := by
              rw [setLen_of_le (by simp), List.take_left' rfl]
            simp [h0, Wal.openOps, DiskOp.run, hd, hlog, FileOp.run, File.settled, hcut]

end Mvcc

/-- The records of a committed transaction. -/
def committedSet : List TxnRecord := [.begin 1 0, .set 1 "a" "1", .commit 1 1]

theorem committedSet_loggable : ∀ record ∈ committedSet, record.Loggable := by
  simp only [committedSet, List.forall_mem_cons]
  exact ⟨⟨_, rfl, by decide⟩, ⟨_, rfl, by decide⟩, ⟨_, rfl, by decide⟩, fun _ h => absurd h List.not_mem_nil⟩

/-- The file that holds them. -/
def committedFile : Disk Unit := fun _ => some (File.settled (Wal.frames (committedSet.map TxnRecord.payload)))

theorem open_committedFile : ∃ ops inner, openStore committedFile = (ops, .ok inner) ∧ inner.commitTs = 1 := by
  have hmap : (openStore committedFile).2.map Inner.commitTs = .ok 1 := by decide +kernel
  rcases hopen : openStore committedFile with ⟨ops, e | inner⟩
  · rw [hopen] at hmap
    cases hmap
  · rw [hopen] at hmap
    exact ⟨ops, inner, rfl, Except.ok.inj hmap⟩

end Mvcc

/-- **Zeros behind the last record**: after any acknowledged mutations, the store is opened with its map
    and goes on, and the transactional store is opened as without the zeros, if and only if there are
    fewer of them than a header has bytes. -/
theorem zero_tail_iff (z : ℕ) :
    (∀ steps d s, Store.Run steps ⟨d, some s⟩ → (∀ p ∈ steps, Store.Acknowledged p.2) →
      ∀ m, s.data.entries = .ok m → (Store.Reopens (extended d .wal z) m ↔ z < 8)) ∧
    ∀ (records : List Mvcc.TxnRecord) (d : Disk Unit) ops inner, (∀ record ∈ records, record.Loggable) →
      d () = some (File.settled (Wal.frames (records.map Mvcc.TxnRecord.payload))) →
      Mvcc.openStore d = (ops, .ok inner) →
      (Mvcc.OpensAlike d (extended d () z) ↔ z < 8) := by
  constructor
  · intro steps d s hrun hack m hm
    obtain ⟨m', hl⟩ := Store.live_of_acknowledged hrun hack
    obtain rfl : m' = m := Except.ok.inj ((BTreeIndex.entries_spec hl.data).symm.trans hm)
    exact Store.reopens_zeros_iff hl z
  · intro records d ops inner hlog hd hopen
    refine Mvcc.opensAlike_zeros_iff ?_ hd hopen z
    intro p hp
    obtain ⟨record, hrecord, rfl⟩ := List.mem_map.1 hp
    exact (hlog record hrecord).payload.2

/-- Three and eight zeros, behind the record of a set and behind a committed transaction. -/
theorem zero_tail_iff_three :
    (∃ steps d s m, Store.Run steps ⟨d, some s⟩ ∧
      steps.map Prod.snd = [.called (.set "a" "1") (.ok ()), .opened] ∧ s.data.entries = .ok m ∧
      Store.Reopens (extended d .wal 3) m) ∧
    ∃ ops inner, Mvcc.openStore Mvcc.committedFile = (ops, .ok inner) ∧ inner.commitTs = 1 ∧
      Mvcc.OpensAlike Mvcc.committedFile (extended Mvcc.committedFile () 3) ∧
      ¬ Mvcc.OpensAlike Mvcc.committedFile (extended Mvcc.committedFile () 8) := by
  constructor
  · obtain ⟨steps, d, hrun, hlabels, hack⟩ :=
      Store.set_value_run (show Wal.Fits (Command.set "a" "1").encode by decide +kernel)
    obtain ⟨m, hl⟩ := Store.live_of_acknowledged hrun hack
    have hm := BTreeIndex.entries_spec hl.data
    exact ⟨steps, d, _, m, hrun, hlabels, hm, ((zero_tail_iff 3).1 _ _ _ hrun hack m hm).2 (by decide)⟩
  · obtain ⟨ops, inner, hopen, hts⟩ := Mvcc.open_committedFile
    have hzeros := fun z => (zero_tail_iff z).2 _ _ _ _ Mvcc.committedSet_loggable rfl hopen
    exact ⟨ops, inner, hopen, hts, (hzeros 3).2 (by decide), fun h => absurd ((hzeros 8).1 h) (by decide)⟩

/-- Eight zeros behind an acknowledged record: the store cannot be opened. -/
theorem not_reopens_eight : ∃ steps d s m, Store.Run steps ⟨d, some s⟩ ∧
    steps.map Prod.snd = [.called (.set "a" "1") (.ok ()), .opened] ∧ s.data.entries = .ok m ∧
    ¬ Store.Reopens (extended d .wal 8) m := by
  obtain ⟨steps, d, hrun, hlabels, hack⟩ := Store.set_value_run (show Wal.Fits (Command.set "a" "1").encode by decide +kernel)
  obtain ⟨m, hl⟩ := Store.live_of_acknowledged hrun hack
  refine ⟨steps, d, _, m, hrun, hlabels, BTreeIndex.entries_spec hl.data, fun h => ?_⟩
  exact absurd ((Store.reopens_zeros_iff hl 8).1 h) (by decide)

end NutDb
