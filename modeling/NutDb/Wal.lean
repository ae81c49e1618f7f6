/-
  The write-ahead log (`src/wal.rs`): framing, `append`, and `replay`.

  A record is `[len: u32][crc: u32][payload]`.  `replay` reads records until the
  first one that is incomplete or fails its checksum.  The main result is
  `replay_eq`: a byte string splits in exactly one way into whole frames and a
  tail that does not begin with a frame, and `replay` returns that split.  From
  it follow the two facts the stores rest on: a log of whole frames is replayed
  completely (`replay_frames`), and a log cut at any byte is replayed up to the
  last whole frame before the cut (`replay_cut`).
-/
import NutDb.Crc

namespace NutDb

open Lib

namespace Wal

/-- `HEADER_LEN`: the length and checksum fields. -/
def HEADER_LEN : ℕ := 8

/-- The bytes that `append` writes for a payload. -/
def frame (payload : Bytes) : Bytes :=
  le 4 payload.length ++ crcField payload ++ payload

/-- The frames of a list of payloads, one after the other. -/
def frames (ps : List Bytes) : Bytes := ps.flatMap frame

/-- A payload whose length fits the `u32` length field. -/
def Fits (payload : Bytes) : Prop := payload.length < 2 ^ 32

instance (payload : Bytes) : Decidable (Fits payload) := by unfold Fits; infer_instance

/-- `Wal::append`: the bytes written for `payload`. -/
def append (payload : Bytes) : Res Bytes :=
  if Fits payload then .ok (frame payload)
  else Res.fail .invalidInput "wal: record exceeds 4 GiB"

/-! ## Replay -/

/-- What a replay found. -/
structure ReplayResult where
  records : List Bytes
  truncated : Bool
  validBytes : ℕ
  deriving DecidableEq, Repr

/-- `ReadOutcome`; `short` is the source's `Partial`. -/
inductive ReadOutcome where
  | full | short | eof
  deriving DecidableEq, Repr

/-- `read_exact_or_eof`: fill a buffer of `n` bytes from the unread bytes `rest`. -/
def readExactOrEof (n : ℕ) (rest : Bytes) : ReadOutcome :=
  if n = 0 then .full
  else
    let filled := min n rest.length
    if filled = 0 then .eof else if filled = n then .full else .short

/-- The loop of `Wal::replay` over the unread bytes `rest` of a file of `fileLen` bytes.  Each
    turn that goes on consumes at least a header, so `fileLen + 1` turns are enough. -/
def replayLoop (fileLen : ℕ) : ℕ → Bytes → List Bytes → ℕ → ReplayResult
  | 0, _, records, validBytes => ⟨records, true, validBytes⟩
  | fuel + 1, rest, records, validBytes =>
    match readExactOrEof HEADER_LEN rest with
    | .eof => ⟨records, false, validBytes⟩
    | .short => ⟨records, true, validBytes⟩
    | .full =>
      let header := rest.take HEADER_LEN
      let len := ofLe (header.take 4)
      let expectedCrc := ofLe (header.drop 4)
      let remaining := fileLen - (validBytes + HEADER_LEN)
      if len > remaining then ⟨records, true, validBytes⟩
      else
        let body := rest.drop HEADER_LEN
        match readExactOrEof len body with
        | .full =>
          let payload := body.take len
          if (crc32 payload).toNat ≠ expectedCrc then ⟨records, true, validBytes⟩
          else replayLoop fileLen fuel (body.drop len) (records ++ [payload])
            (validBytes + (HEADER_LEN + len))
        | _ => ⟨records, true, validBytes⟩

/-- `Wal::replay` of a file with content `file`. -/
def replay (file : Bytes) : ReplayResult :=
  replayLoop file.length (file.length + 1) file [] 0

/-- `Wal::replay` of a path: a missing file is an empty log. -/
def replayPath : Option Bytes → ReplayResult
  | none => ⟨[], false, 0⟩
  | some file => replay file

/-! ## Frames -/

/-- The bytes begin with a complete frame. -/
def StartsWithFrame (b : Bytes) : Prop := ∃ p rest, Fits p ∧ b = frame p ++ rest

@[simp] theorem length_frame (p : Bytes) : (frame p).length = HEADER_LEN + p.length := by
  simp [frame, HEADER_LEN]; omega

@[simp] theorem frames_nil : frames [] = [] := rfl

@[simp] theorem frames_cons (p : Bytes) (ps : List Bytes) : frames (p :: ps) = frame p ++ frames ps := rfl

@[simp] theorem frames_append (ps qs : List Bytes) : frames (ps ++ qs) = frames ps ++ frames qs := by
  simp [frames]

theorem frames_singleton (p : Bytes) : frames [p] = frame p := by simp

theorem append_eq_ok {p b : Bytes} : append p = .ok b ↔ Fits p ∧ b = frame p := by
  unfold append
  split_ifs with h
  · rw [Except.ok.injEq]; exact ⟨fun h' => ⟨h, h'.symm⟩, fun h' => h'.2.symm⟩
  · simp [Res.fail, h]

theorem append_of_fits {p : Bytes} (h : Fits p) : append p = .ok (frame p) := append_eq_ok.2 ⟨h, rfl⟩

/-- The header of a frame says how long it is. -/
theorem ofLe_take_frame {p : Bytes} (h : Fits p) (rest : Bytes) :
    ofLe ((frame p ++ rest).take 4) = p.length := by
  have : (frame p ++ rest).take 4 = le 4 p.length := by
    rw [frame, List.append_assoc, List.append_assoc, List.take_left']
    simp
  rw [this, ofLe_le_of_lt (lt_of_lt_of_le h (by norm_num))]

/-- A strict prefix of a frame does not begin with a frame. -/
theorem not_startsWithFrame_of_prefix {p t : Bytes} (hp : Fits p) (ht : t <+: frame p)
    (hne : t ≠ frame p) : ¬ StartsWithFrame t := by
  rintro ⟨q, rest, hq, rfl⟩
  obtain ⟨s, hs⟩ := ht
  have hlen : q.length = p.length := by
    rw [← ofLe_take_frame hq (rest ++ s), ← ofLe_take_frame hp [], List.append_nil, ← hs,
      List.append_assoc]
  have htot := congrArg List.length hs
  simp only [List.length_append, length_frame, hlen] at htot
  have hrest : rest = [] := List.length_eq_zero_iff.1 (by omega)
  have hs' : s = [] := List.length_eq_zero_iff.1 (by omega)
  subst hrest hs'
  exact hne (by simpa using hs)

theorem not_startsWithFrame_nil : ¬ StartsWithFrame [] := by
  rintro ⟨q, rest, -, h⟩
  have := congrArg List.length h
  simp only [List.length_nil, List.length_append, length_frame, HEADER_LEN] at this
  omega

/-! ## What replay computes -/

theorem readExactOrEof_full_iff {n : ℕ} {rest : Bytes} (hn : n ≠ 0) :
    readExactOrEof n rest = .full ↔ n ≤ rest.length := by
  simp only [readExactOrEof, if_neg hn]
  split_ifs with h1 h2
  · simp only [false_iff]; omega
  · simp only [true_iff]; omega
  · simp only [false_iff]; omega

theorem readExactOrEof_eof_iff {n : ℕ} {rest : Bytes} (hn : n ≠ 0) :
    readExactOrEof n rest = .eof ↔ rest = [] := by
  rw [← List.length_eq_zero_iff]
  simp only [readExactOrEof, if_neg hn]
  split_ifs with h1 h2
  · simp only [true_iff]; omega
  · simp only [false_iff]; omega
  · simp only [false_iff]; omega

/-- One turn of the loop on a whole frame. -/
theorem replayLoop_frame {fileLen fuel : ℕ} {p rest : Bytes} {records : List Bytes} {valid : ℕ}
    (hp : Fits p) (hlen : fileLen = valid + (frame p ++ rest).length) :
    replayLoop fileLen (fuel + 1) (frame p ++ rest) records valid =
      replayLoop fileLen fuel rest (records ++ [p]) (valid + (HEADER_LEN + p.length)) := by
  have hfull : readExactOrEof HEADER_LEN (frame p ++ rest) = .full :=
    (readExactOrEof_full_iff (by simp [HEADER_LEN])).2 (by simp; omega)
  have hhead : (frame p ++ rest).take HEADER_LEN = le 4 p.length ++ crcField p := by
    rw [frame, List.append_assoc, List.take_left']
    simp [HEADER_LEN]
  have hbody : (frame p ++ rest).drop HEADER_LEN = p ++ rest := by
    rw [frame, List.append_assoc, List.drop_left']
    simp [HEADER_LEN]
  have h1 : (le 4 p.length ++ crcField p).take 4 = le 4 p.length := List.take_left' (by simp)
  have h2 : (le 4 p.length ++ crcField p).drop 4 = crcField p := List.drop_left' (by simp)
  have h3 : ofLe (le 4 p.length) = p.length := ofLe_le_of_lt (lt_of_lt_of_le hp (by norm_num))
  have hread : readExactOrEof p.length (p ++ rest) = .full := by
    by_cases h0 : p.length = 0
    · simp [readExactOrEof, h0]
    · exact (readExactOrEof_full_iff h0).2 (by simp)
  have hrem : ¬ p.length > fileLen - (valid + HEADER_LEN) := by
    rw [hlen]; simp only [List.length_append, length_frame]; omega
  simp only [replayLoop, hfull, hhead, hbody, h1, h2, h3, hrem, if_false, hread,
    List.take_left', ofLe_crcField, ne_eq, not_true_eq_false, List.drop_left']

/-- Bytes whose header fields agree with what follows begin with a frame. -/
theorem startsWithFrame_of_header {t : Bytes} {len : ℕ} (h8 : HEADER_LEN ≤ t.length)
    (hlen : len = ofLe ((t.take HEADER_LEN).take 4)) (hle : len ≤ (t.drop HEADER_LEN).length)
    (hcrc : (crc32 ((t.drop HEADER_LEN).take len)).toNat = ofLe ((t.take HEADER_LEN).drop 4)) :
    StartsWithFrame t := by
  have hl4 : ((t.take HEADER_LEN).take 4).length = 4 := by
    simp [HEADER_LEN] at h8 ⊢; omega
  have hc4 : ((t.take HEADER_LEN).drop 4).length = 4 := by
    simp [HEADER_LEN] at h8 ⊢; omega
  have hplen : ((t.drop HEADER_LEN).take len).length = len := by simpa using hle
  have hl := le_ofLe ((t.take HEADER_LEN).take 4)
  have hc := le_ofLe ((t.take HEADER_LEN).drop 4)
  rw [hl4, ← hlen] at hl
  rw [hc4, ← hcrc] at hc
  refine ⟨(t.drop HEADER_LEN).take len, (t.drop HEADER_LEN).drop len, ?_, ?_⟩
  · have h4 := ofLe_lt ((t.take HEADER_LEN).take 4)
    rw [← hlen, hl4] at h4
    rw [Fits, hplen]
    exact lt_of_lt_of_le h4 (by norm_num)
  · rw [frame, crcField, hplen, hl, hc, List.take_append_drop, List.append_assoc,
      List.take_append_drop, List.take_append_drop]

/-- The loop stops, keeping what it has, on bytes that do not begin with a frame. -/
theorem replayLoop_stop {fileLen fuel : ℕ} {t : Bytes} {records : List Bytes} {valid : ℕ}
    (ht : ¬ StartsWithFrame t) (hlen : fileLen = valid + t.length) :
    replayLoop fileLen (fuel + 1) t records valid = ⟨records, decide (t ≠ []), valid⟩ := by
  have h0 : HEADER_LEN ≠ 0 := by simp [HEADER_LEN]
  simp only [replayLoop]
  rcases hr : readExactOrEof HEADER_LEN t with _ | _ | _
  · -- a whole header: the length or the checksum is wrong
    have h8 : HEADER_LEN ≤ t.length := (readExactOrEof_full_iff h0).1 hr
    have hne : decide (t ≠ []) = true := by
      rw [decide_eq_true_eq]; rintro rfl; simp [HEADER_LEN] at h8
    simp only [hne]
    by_cases hlong : ofLe ((t.take HEADER_LEN).take 4) > fileLen - (valid + HEADER_LEN)
    · rw [if_pos hlong]
    · have hle : ofLe ((t.take HEADER_LEN).take 4) ≤ (t.drop HEADER_LEN).length := by
        simp only [List.length_drop]; omega
      rw [if_neg hlong]
      split
      · rw [if_pos fun hcrc => ht (startsWithFrame_of_header h8 rfl hle hcrc)]
      · rfl
  · have hne : t ≠ [] := fun h => by rw [(readExactOrEof_eof_iff h0).2 h] at hr; cases hr
    simp [hne]
  · simp [(readExactOrEof_eof_iff h0).1 hr]

theorem replayLoop_eq {fileLen : ℕ} {ps : List Bytes} {t : Bytes} (hps : ∀ p ∈ ps, Fits p)
    (ht : ¬ StartsWithFrame t) {fuel : ℕ} (records : List Bytes) {valid : ℕ}
    (hfuel : (frames ps ++ t).length < fuel)
    (hlen : fileLen = valid + (frames ps ++ t).length) :
    replayLoop fileLen fuel (frames ps ++ t) records valid =
      ⟨records ++ ps, decide (t ≠ []), valid + (frames ps).length⟩ := by
  induction ps generalizing fuel records valid with
  | nil =>
    obtain ⟨fuel, rfl⟩ : ∃ k, fuel = k + 1 := ⟨fuel - 1, by omega⟩
    simpa using replayLoop_stop ht hlen
  | cons p ps ih =>
    obtain ⟨fuel, rfl⟩ : ∃ k, fuel = k + 1 := ⟨fuel - 1, by omega⟩
    simp only [frames_cons, List.append_assoc, List.length_append, length_frame, HEADER_LEN]
      at hfuel hlen ⊢
    rw [replayLoop_frame (hps p (by simp)) (by simp [HEADER_LEN]; omega),
      ih (fun q hq => hps q (by simp [hq])) _ (by simp; omega) (by simp [HEADER_LEN]; omega)]
    simp [HEADER_LEN, Nat.add_assoc]

/-- **Replay returns the frames before the first bad byte.** -/
theorem replay_eq {ps : List Bytes} {t : Bytes} (hps : ∀ p ∈ ps, Fits p)
    (ht : ¬ StartsWithFrame t) :
    replay (frames ps ++ t) = ⟨ps, decide (t ≠ []), (frames ps).length⟩ := by
  have := replayLoop_eq hps ht [] (Nat.lt_succ_self _) (Nat.zero_add _).symm
  rw [replay, this, List.nil_append, Nat.zero_add]

theorem replay_frames {ps : List Bytes} (hps : ∀ p ∈ ps, Fits p) :
    replay (frames ps) = ⟨ps, false, (frames ps).length⟩ := by
  simpa using replay_eq hps not_startsWithFrame_nil

/-- A prefix of a list of frames: some whole frames and a strict prefix of the next one. -/
theorem prefix_frames {b : Bytes} : ∀ {ps : List Bytes}, (∀ p ∈ ps, Fits p) → b <+: frames ps →
    ∃ qs rs t, ps = qs ++ rs ∧ b = frames qs ++ t ∧ ¬ StartsWithFrame t ∧
      (rs = [] → t = []) ∧ ∀ r rs', rs = r :: rs' → t <+: frame r ∧ t ≠ frame r
  | [], _, h => ⟨[], [], [], rfl, by simpa using h, not_startsWithFrame_nil, by simp, by simp⟩
  | p :: ps, hps, h => by
    rw [frames_cons] at h
    by_cases hlt : b.length < (frame p).length
    · have ht : b <+: frame p := List.prefix_of_prefix_length_le h (List.prefix_append _ _) hlt.le
      have hne : b ≠ frame p := by rintro rfl; omega
      refine ⟨[], p :: ps, b, rfl, rfl, not_startsWithFrame_of_prefix (hps p (by simp)) ht hne,
        by simp, ?_⟩
      rintro r rs' he
      cases he
      exact ⟨ht, hne⟩
    · obtain ⟨b', rfl⟩ : frame p <+: b :=
        List.prefix_of_prefix_length_le (List.prefix_append _ _) h (by omega)
      obtain ⟨qs, rs, t, rfl, rfl, ht, h1, h2⟩ :=
        prefix_frames (fun q hq => hps q (by simp [hq])) ((List.prefix_append_right_inj _).1 h)
      exact ⟨p :: qs, rs, t, rfl, by simp, ht, h1, h2⟩

/-- **Replay of a cut log**: exactly the payloads whose frames lie before the cut.  A log whose
    first frames `frames ps` survive the cut keeps the payloads `ps`. -/
theorem replay_cut {ps qs : List Bytes} {b : Bytes} (hps : ∀ p ∈ ps ++ qs, Fits p)
    (hlo : frames ps <+: b) (hhi : b <+: frames (ps ++ qs)) :
    ∃ qs₁ qs₂ t, qs = qs₁ ++ qs₂ ∧ b = frames (ps ++ qs₁) ++ t ∧ ¬ StartsWithFrame t ∧
      replay b = ⟨ps ++ qs₁, decide (t ≠ []), (frames (ps ++ qs₁)).length⟩ := by
  obtain ⟨b', rfl⟩ := hlo
  rw [frames_append] at hhi
  obtain ⟨qs₁, qs₂, t, rfl, rfl, ht, -, -⟩ :=
    prefix_frames (fun q hq => hps q (by simp [hq])) ((List.prefix_append_right_inj _).1 hhi)
  have hb : frames ps ++ (frames qs₁ ++ t) = frames (ps ++ qs₁) ++ t := by simp
  refine ⟨qs₁, qs₂, t, rfl, hb, ht, ?_⟩
  rw [hb]
  refine replay_eq (fun p hp => hps p ?_) ht
  rcases List.mem_append.1 hp with hp | hp <;> simp [hp]

/-- Every file is a list of frames and a rest that does not begin with one. -/
theorem exists_frames : ∀ (k : ℕ) (b : Bytes), b.length ≤ k →
    ∃ ps t, (∀ p ∈ ps, Fits p) ∧ ¬ StartsWithFrame t ∧ b = frames ps ++ t
  | 0, b, h => by
    have hb : b = [] := List.eq_nil_of_length_eq_zero (Nat.le_zero.1 h)
    exact ⟨[], [], by simp, not_startsWithFrame_nil, by simp [hb]⟩
  | k + 1, b, h => by
    by_cases hs : StartsWithFrame b
    · obtain ⟨p, rest, hp, rfl⟩ := hs
      have hrest : rest.length ≤ k := by
        rw [List.length_append, length_frame, HEADER_LEN] at h
        omega
      obtain ⟨ps, t, hps, ht, rfl⟩ := exists_frames k rest hrest
      refine ⟨p :: ps, t, fun q hq => ?_, ht, by simp⟩
      rcases List.mem_cons.1 hq with rfl | hq
      · exact hp
      · exact hps q hq
    · exact ⟨[], b, by simp, hs, rfl⟩

/-- What `replay` says of a file: its records are framed in the first `validBytes` bytes, behind
    which no frame begins. -/
structure LongestPrefix (b : Bytes) (r : ReplayResult) : Prop where
  fits : ∀ p ∈ r.records, Fits p
  bytes : b.take r.validBytes = frames r.records
  le : r.validBytes ≤ b.length
  stops : ¬ StartsWithFrame (b.drop r.validBytes)
  truncated : r.truncated = true ↔ r.validBytes < b.length

theorem longestPrefix_replay (b : Bytes) : LongestPrefix b (replay b) := by
  obtain ⟨ps, t, hps, ht, rfl⟩ := exists_frames _ b le_rfl
  rw [replay_eq hps ht]
  refine ⟨hps, List.take_left' rfl, by simp, by rw [List.drop_left' rfl]; exact ht, ?_⟩
  rw [decide_eq_true_eq, List.length_append, Nat.lt_add_right_iff_pos, List.length_pos_iff]

/-- The lengths of the frames of the first records grow. -/
theorem length_frames_take_lt (ps : List Bytes) {i j : ℕ} (hij : i < j) (hj : j ≤ ps.length) :
    (frames (ps.take i)).length < (frames (ps.take j)).length := by
  obtain ⟨d, rfl⟩ : ∃ d, j = i + (d + 1) := ⟨j - i - 1, by omega⟩
  have hsplit : ps.take (i + (d + 1)) = ps.take i ++ (ps.drop i).take (d + 1) := List.take_add
  have hne : (ps.drop i).take (d + 1) ≠ [] := by
    rw [← List.length_pos_iff, List.length_take, List.length_drop]
    omega
  obtain ⟨p, rest, hrest⟩ := List.exists_cons_of_ne_nil hne
  rw [hsplit, hrest, frames_append, frames_cons, List.length_append, List.length_append, length_frame,
    HEADER_LEN]
  omega

/-- A cut of framed payloads keeps those whose frames lie before it. -/
theorem replay_take {ps : List Bytes} (hps : ∀ p ∈ ps, Fits p) (cut : ℕ) :
    ∃ k ≤ ps.length, (replay ((frames ps).take cut)).records = ps.take k ∧
      ∀ j ≤ ps.length, (frames (ps.take j)).length ≤ cut ↔ j ≤ k := by
  obtain ⟨qs, rs, t, rfl, hb, ht, hnil, hcons⟩ := prefix_frames hps (List.take_prefix cut (frames ps))
  have htake : ∀ {j}, j ≤ qs.length → (frames ((qs ++ rs).take j)).length ≤ cut := by
    intro j hj
    have hlen := congrArg List.length hb
    rw [List.length_append, List.length_take] at hlen
    have hmono : (frames ((qs ++ rs).take j)).length ≤ (frames qs).length := by
      rcases hj.lt_or_eq with hlt | rfl
      · have := length_frames_take_lt (qs ++ rs) hlt (by simp)
        rw [show (qs ++ rs).take qs.length = qs from List.take_left' rfl] at this
        exact this.le
      · rw [List.take_left' rfl]
    omega
  refine ⟨qs.length, by simp, ?_, fun j hj => ⟨fun hle => ?_, htake⟩⟩
  · rw [hb, replay_eq (fun p hp => hps p (by simp [hp])) ht, List.take_left' rfl]
  · -- the next frame does not fit
    by_contra hlt
    cases rs with
    | nil => simp at hj; omega
    | cons r rs =>
      obtain ⟨htr, hne⟩ := hcons r rs rfl
      have hnext : (frames ((qs ++ r :: rs).take (qs.length + 1))).length ≤ cut := by
        rcases (Nat.succ_le_of_lt (not_le.1 hlt)).lt_or_eq with h | h
        · exact (length_frames_take_lt _ h hj).le.trans hle
        · rw [← h] at hle; exact hle
      have hfirst : (qs ++ r :: rs).take (qs.length + 1) = qs ++ [r] := by simp [List.take_append]
      rw [hfirst] at hnext
      have hpre : frames (qs ++ [r]) <+: (frames (qs ++ r :: rs)).take cut := by
        rw [List.prefix_take_iff]
        exact ⟨by simp, hnext⟩
      rw [hb, frames_append, List.prefix_append_right_inj, frames_singleton] at hpre
      exact hne (List.IsPrefix.eq_of_length htr (le_antisymm htr.length_le hpre.length_le))

/-- **`Wal::replay` recovers exactly the longest valid prefix**, of every file; truncating the file to
    it repairs the log, and records can be appended again. -/
theorem replay_exact (b : Bytes) :
    LongestPrefix b (replay b) ∧
    replay (b.take (replay b).validBytes) = ⟨(replay b).records, false, (replay b).validBytes⟩ ∧
    (∀ p bytes, append p = .ok bytes →
      replay (b.take (replay b).validBytes ++ bytes) =
        ⟨(replay b).records ++ [p], false, (replay b).validBytes + bytes.length⟩) ∧
    ∀ ps : List Bytes, (∀ p ∈ ps, Fits p) → ∀ cut, ∃ k ≤ ps.length,
      (replay ((frames ps).take cut)).records = ps.take k ∧
        ∀ j ≤ ps.length, (frames (ps.take j)).length ≤ cut ↔ j ≤ k := by
  have h := longestPrefix_replay b
  have hlen : (frames (replay b).records).length = (replay b).validBytes := by
    rw [← h.bytes, List.length_take, Nat.min_eq_left h.le]
  refine ⟨h, ?_, fun p bytes hp => ?_, fun ps hps cut => replay_take hps cut⟩
  · rw [h.bytes, replay_frames h.fits, hlen]
  · obtain ⟨hfit, rfl⟩ := append_eq_ok.1 hp
    rw [h.bytes, ← frames_singleton, ← frames_append, replay_frames, frames_append, List.length_append, hlen]
    intro q hq
    rcases List.mem_append.1 hq with hq | hq
    · exact h.fits q hq
    · rw [List.mem_singleton.1 hq]; exact hfit

end Wal

end NutDb
