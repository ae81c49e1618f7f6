/-
  The persistent state of a Raft node (`PersistentState` of
  `src/raft/state.rs`).

  A state is written as one record with all of the log.  It can be written if the
  number of entries, each command and the record as a whole fit their length
  fields, which depends on the log only (`Persistable`) and is a bound on the
  record (`persistable_iff`).
-/
import NutDb.Wal

namespace NutDb

open Lib

namespace Raft

/-- `Entry` of `src/raft/rpc.rs`. -/
structure Entry where
  term : U64
  command : Bytes
  deriving DecidableEq, Repr

def STATE_TAG : UInt8 := 0x52
def STATE_VERSION : UInt8 := 1

/-- `invalid` of `src/raft/state.rs`. -/
def invalidData {α : Type} (message : String) : Res α := Res.fail .invalidData message

/-- `PersistentState`. -/
structure PersistentState where
  currentTerm : U64 := 0
  votedFor : Option U64 := none
  log : List Entry := []
  deriving DecidableEq, Repr

/-- One entry of an encoded log. -/
def encodeEntry (entry : Entry) : Res Bytes :=
  if entry.command.length < 2 ^ 32 then
    .ok (entry.term.toLe ++ le 4 entry.command.length ++ entry.command)
  else invalidData "raft: command too large"

/-- The vote of an encoded state: a flag and the node. -/
def encodeVote : Option U64 → Bytes
  | some node => 1 :: node.toLe
  | none => 0 :: (0 : U64).toLe

/-- `Cursor::take`. -/
def takeBytes (c : Cursor) (n : ℕ) : Res (Bytes × Cursor) :=
  Res.ofOption .invalidData "raft: state length exceeds record" (c.take n)

/-- `Cursor::u8`. -/
def takeU8 (c : Cursor) : Res (UInt8 × Cursor) := do
  let (slice, c) ← takeBytes c 1
  let b ← Res.get slice 0
  return (b, c)

/-- `Cursor::u32`. -/
def takeU32 (c : Cursor) : Res (ℕ × Cursor) := do
  let (slice, c) ← takeBytes c 4
  return (ofLe slice, c)

/-- `Cursor::u64`. -/
def takeU64 (c : Cursor) : Res (U64 × Cursor) := do
  let (slice, c) ← takeBytes c 8
  return (U64.ofLe slice, c)

/-- The loop of `decode` over the entries. -/
def decodeEntries : ℕ → Cursor → Res (List Entry × Cursor)
  | 0, c => .ok ([], c)
  | count + 1, c => do
    let (term, c) ← takeU64 c
    let (len, c) ← takeU32 c
    let (command, c) ← takeBytes c len
    let (entries, c) ← decodeEntries count c
    return (⟨term, command⟩ :: entries, c)

/-- The vote of an encoded state. -/
def decodeVote (hasVote : UInt8) (vote : U64) : Res (Option U64) :=
  if hasVote = 0 then .ok none
  else if hasVote = 1 then .ok (some vote)
  else invalidData "raft: invalid vote flag"

/-- The header of an encoded state; the version is read only if the tag is right. -/
def decodeHeader (c : Cursor) : Res Cursor := do
  let (tag, c) ← takeU8 c
  if tag ≠ STATE_TAG then invalidData "raft: bad persistent state header"
  else do
    let (version, c) ← takeU8 c
    if version ≠ STATE_VERSION then invalidData "raft: bad persistent state header" else return c

namespace PersistentState

/-- `PersistentState::encode`. -/
def encode (s : PersistentState) : Res Bytes :=
  if s.log.length < 2 ^ 32 then do
    let entries ← s.log.mapM encodeEntry
    return STATE_TAG :: STATE_VERSION :: (s.currentTerm.toLe ++ encodeVote s.votedFor ++
      le 4 s.log.length ++ entries.flatten)
  else invalidData "raft: log too large to encode"

/-- `PersistentState::decode`. -/
def decode (bytes : Bytes) : Res PersistentState := do
  let c ← decodeHeader (.start bytes)
  let (currentTerm, c) ← takeU64 c
  let (hasVote, c) ← takeU8 c
  let (vote, c) ← takeU64 c
  let votedFor ← decodeVote hasVote vote
  let (count, c) ← takeU32 c
  let (log, c) ← decodeEntries count c
  if c.atEnd then return ⟨currentTerm, votedFor, log⟩
  else invalidData "raft: trailing persistent state bytes"

end PersistentState

/-! ## Round trip -/

section Cursor
variable {c : Cursor} {rest : Bytes}

theorem takeBytes_of_unread {xs : Bytes} (h : c.unread = xs ++ rest) :
    ∃ c', takeBytes c xs.length = .ok (xs, c') ∧ c'.unread = rest := by
  obtain ⟨c', h1, h2⟩ := c.take_of_unread h
  exact ⟨c', by simp [takeBytes, h1], h2⟩

theorem takeU8_of_unread {b : UInt8} (h : c.unread = b :: rest) :
    ∃ c', takeU8 c = .ok (b, c') ∧ c'.unread = rest := by
  obtain ⟨c', h1, h2⟩ := takeBytes_of_unread (show c.unread = [b] ++ rest from h)
  rw [List.length_singleton] at h1
  exact ⟨c', by simp [takeU8, h1, Res.get], h2⟩

theorem takeU32_of_unread {n : ℕ} (hn : n < 2 ^ 32) (h : c.unread = le 4 n ++ rest) :
    ∃ c', takeU32 c = .ok (n, c') ∧ c'.unread = rest := by
  obtain ⟨c', h1, h2⟩ := takeBytes_of_unread h
  rw [length_le] at h1
  have hle : ofLe (le 4 n) = n := ofLe_le_of_lt (lt_of_lt_of_le hn (by norm_num))
  exact ⟨c', by simp only [takeU32, h1, Res.ok_bind, Res.pure_eq, hle], h2⟩

theorem takeU64_of_unread {a : U64} (h : c.unread = a.toLe ++ rest) :
    ∃ c', takeU64 c = .ok (a, c') ∧ c'.unread = rest := by
  obtain ⟨c', h1, h2⟩ := takeBytes_of_unread h
  rw [U64.length_toLe] at h1
  exact ⟨c', by simp [takeU64, h1], h2⟩

end Cursor

theorem encodeEntry_eq_ok {entry : Entry} {b : Bytes} : encodeEntry entry = .ok b ↔
    entry.command.length < 2 ^ 32 ∧ b = entry.term.toLe ++ le 4 entry.command.length ++ entry.command := by
  unfold encodeEntry
  split_ifs with h
  · rw [Except.ok.injEq]
    exact ⟨fun h' => ⟨h, h'.symm⟩, fun h' => h'.2.symm⟩
  · exact ⟨fun h' => (nomatch h'), fun h' => absurd h'.1 h⟩

theorem decodeEntries_of_unread {log : List Entry} {entries : List Bytes} {rest : Bytes} {c : Cursor}
    (he : log.mapM encodeEntry = .ok entries) (h : c.unread = entries.flatten ++ rest) :
    ∃ c', decodeEntries log.length c = .ok (log, c') ∧ c'.unread = rest := by
  induction log generalizing entries c with
  | nil =>
    cases he
    exact ⟨c, rfl, by simpa using h⟩
  | cons entry log ih =>
    rw [List.mapM_cons, Res.bind_eq_ok] at he
    obtain ⟨b, hb, he⟩ := he
    obtain ⟨bs, hbs, heq⟩ := Res.bind_eq_ok.1 he
    cases heq
    obtain ⟨hlen, rfl⟩ := encodeEntry_eq_ok.1 hb
    rw [List.flatten_cons, List.append_assoc, List.append_assoc, List.append_assoc] at h
    obtain ⟨c₁, h1, h1'⟩ := takeU64_of_unread h
    obtain ⟨c₂, h2, h2'⟩ := takeU32_of_unread hlen h1'
    obtain ⟨c₃, h3, h3'⟩ := takeBytes_of_unread h2'
    obtain ⟨c₄, h4, h4'⟩ := ih hbs h3'
    refine ⟨c₄, ?_, h4'⟩
    simp only [List.length_cons, decodeEntries, h1, h2, h3, h4, Res.ok_bind, Res.pure_eq]

/-- **A state is read back as written.** -/
theorem PersistentState.decode_encode {s : PersistentState} {b : Bytes} (h : s.encode = .ok b) :
    decode b = .ok s := by
  unfold encode at h
  split_ifs at h with hlen
  · rw [Res.bind_eq_ok] at h
    obtain ⟨entries, he, h⟩ := h
    cases h
    rw [List.append_assoc, List.append_assoc]
    obtain ⟨c₁, h1, h1'⟩ := takeU8_of_unread (Cursor.unread_start (STATE_TAG :: STATE_VERSION ::
      (s.currentTerm.toLe ++ (encodeVote s.votedFor ++ (le 4 s.log.length ++ entries.flatten)))))
    obtain ⟨c₂, h2, h2'⟩ := takeU8_of_unread h1'
    obtain ⟨c₃, h3, h3'⟩ := takeU64_of_unread h2'
    obtain ⟨flag, vote, hvote, hdec⟩ : ∃ (flag : UInt8) (vote : U64),
        encodeVote s.votedFor = flag :: vote.toLe ∧ decodeVote flag vote = .ok s.votedFor := by
      cases s.votedFor with
      | none => exact ⟨0, 0, rfl, rfl⟩
      | some node => exact ⟨1, node, rfl, rfl⟩
    rw [hvote] at h3'
    obtain ⟨c₄, h4, h4'⟩ := takeU8_of_unread h3'
    obtain ⟨c₅, h5, h5'⟩ := takeU64_of_unread h4'
    obtain ⟨c₆, h6, h6'⟩ := takeU32_of_unread hlen h5'
    obtain ⟨c₇, h7, h7'⟩ := decodeEntries_of_unread he (h6'.trans (List.append_nil _).symm)
    simp only [decode, decodeHeader, h1, h2, h3, h4, h5, h6, h7, hdec, Res.ok_bind, Res.pure_eq, ne_eq,
      not_true_eq_false, if_false, (c₇.atEnd_iff).2 h7', if_true]
  · cases h

/-! ## States that can be written -/

/-- A log that can be written, in whatever term and with whatever vote. -/
def Persistable (log : List Entry) : Prop :=
  ∀ term vote, ∃ b, (PersistentState.mk term vote log).encode = .ok b ∧ Wal.Fits b

theorem length_encodeVote (vote : Option U64) : (encodeVote vote).length = 9 := by
  cases vote <;> simp [encodeVote]

/-- Whether a state can be written depends on its log only. -/
theorem persistable_of_encode {s : PersistentState} {b : Bytes} (h : s.encode = .ok b)
    (hfit : Wal.Fits b) : Persistable s.log := by
  intro term vote
  unfold PersistentState.encode at h
  split_ifs at h with hlen
  · rw [Res.bind_eq_ok] at h
    obtain ⟨entries, he, h⟩ := h
    cases h
    refine ⟨_, by simp only [PersistentState.encode, if_pos hlen, he, Res.ok_bind, Res.pure_eq]; rfl, ?_⟩
    unfold Wal.Fits at hfit ⊢
    simp only [List.length_cons, List.length_append, U64.length_toLe, length_encodeVote, length_le] at hfit ⊢
    exact hfit
  · cases h

/-- The bytes of the record of a state with this log. -/
def recordBytes (log : List Entry) : ℕ := 23 + (log.map fun entry => 12 + entry.command.length).sum

theorem length_mapM_encodeEntry {log : List Entry} {entries : List Bytes} (h : log.mapM encodeEntry = .ok entries) :
    entries.flatten.length = (log.map fun entry => 12 + entry.command.length).sum := by
  induction log generalizing entries with
  | nil =>
    cases h
    rfl
  | cons entry log ih =>
    rw [List.mapM_cons, Res.bind_eq_ok] at h
    obtain ⟨b, hb, h⟩ := h
    obtain ⟨bs, hbs, heq⟩ := Res.bind_eq_ok.1 h
    cases heq
    obtain ⟨-, rfl⟩ := encodeEntry_eq_ok.1 hb
    rw [List.flatten_cons, List.length_append, ih hbs, List.map_cons, List.sum_cons]
    simp only [List.length_append, U64.length_toLe, length_le]

theorem length_encode {s : PersistentState} {b : Bytes} (h : s.encode = .ok b) : b.length = recordBytes s.log := by
  unfold PersistentState.encode at h
  split_ifs at h with hlen
  · obtain ⟨entries, he, h⟩ := Res.bind_eq_ok.1 h
    cases h
    simp only [List.length_cons, List.length_append, U64.length_toLe, length_encodeVote, length_le,
      length_mapM_encodeEntry he, recordBytes]
    omega
  · cases h

/-- **A log can be written** exactly if its record fits the length field of the log file. -/
theorem persistable_iff {log : List Entry} : Persistable log ↔ recordBytes log < 2 ^ 32 := by
  constructor
  · intro h
    obtain ⟨b, hb, hfit⟩ := h 0 none
    rwa [← length_encode hb]
  · intro h term vote
    have hcommand : ∀ entry ∈ log, entry.command.length < 2 ^ 32 := fun entry hentry => by
      have := List.le_sum_of_mem (List.mem_map_of_mem (f := fun entry : Entry => 12 + entry.command.length) hentry)
      rw [recordBytes] at h
      omega
    have hlen : log.length < 2 ^ 32 := by
      have := List.length_le_sum_of_one_le (log.map fun entry => 12 + entry.command.length) (by simp; omega)
      rw [List.length_map] at this
      rw [recordBytes] at h
      omega
    obtain ⟨entries, he⟩ := Res.mapM_of_ok (f := encodeEntry) fun entry hentry =>
      ⟨_, encodeEntry_eq_ok.2 ⟨hcommand entry hentry, rfl⟩⟩
    have hencode : ∃ b, (PersistentState.mk term vote log).encode = .ok b := by
      simp only [PersistentState.encode, if_pos hlen, he, Res.ok_bind]
      exact ⟨_, rfl⟩
    obtain ⟨b, hb⟩ := hencode
    refine ⟨b, hb, ?_⟩
    rw [Wal.Fits, length_encode hb]
    exact h

/-! ### What is read fits, too -/

section Length
variable {c c' : Cursor}

theorem length_takeBytes {n : ℕ} {xs : Bytes} (h : takeBytes c n = .ok (xs, c')) :
    c.unread.length = n + c'.unread.length ∧ xs.length = n := by
  rcases ht : c.take n with _ | ⟨ys, d⟩
  · rw [takeBytes, ht] at h
    cases h
  · rw [takeBytes, ht] at h
    cases h
    obtain ⟨hunread, hlen⟩ := Cursor.unread_of_take ht
    exact ⟨by rw [hunread, List.length_append, hlen], hlen⟩

theorem length_takeU8 {b : UInt8} (h : takeU8 c = .ok (b, c')) : c.unread.length = 1 + c'.unread.length := by
  obtain ⟨⟨xs, d⟩, ht, h⟩ := Res.bind_eq_ok.1 h
  obtain ⟨b', -, h⟩ := Res.bind_eq_ok.1 h
  cases h
  exact (length_takeBytes ht).1

theorem length_takeU32 {n : ℕ} (h : takeU32 c = .ok (n, c')) : c.unread.length = 4 + c'.unread.length := by
  obtain ⟨⟨xs, d⟩, ht, h⟩ := Res.bind_eq_ok.1 h
  cases h
  exact (length_takeBytes ht).1

theorem length_takeU64 {a : U64} (h : takeU64 c = .ok (a, c')) : c.unread.length = 8 + c'.unread.length := by
  obtain ⟨⟨xs, d⟩, ht, h⟩ := Res.bind_eq_ok.1 h
  cases h
  exact (length_takeBytes ht).1

theorem length_decodeEntries {count : ℕ} {log : List Entry} (h : decodeEntries count c = .ok (log, c')) :
    c.unread.length = (log.map fun entry => 12 + entry.command.length).sum + c'.unread.length := by
  induction count generalizing c log with
  | zero =>
    cases h
    simp
  | succ count ih =>
    rw [decodeEntries] at h
    obtain ⟨⟨term, c₁⟩, h₁, h⟩ := Res.bind_eq_ok.1 h
    obtain ⟨⟨len, c₂⟩, h₂, h⟩ := Res.bind_eq_ok.1 h
    obtain ⟨⟨command, c₃⟩, h₃, h⟩ := Res.bind_eq_ok.1 h
    obtain ⟨⟨entries, c₄⟩, h₄, h⟩ := Res.bind_eq_ok.1 h
    cases h
    have h₁ := length_takeU64 h₁
    have h₂ := length_takeU32 h₂
    obtain ⟨h₃, hlen⟩ := length_takeBytes h₃
    have h₄ := ih h₄
    rw [List.map_cons, List.sum_cons]
    dsimp only
    omega

theorem length_decodeHeader (h : decodeHeader c = .ok c') : c.unread.length = 2 + c'.unread.length := by
  rw [decodeHeader] at h
  obtain ⟨⟨tag, c₁⟩, h₁, h⟩ := Res.bind_eq_ok.1 h
  have h₁ := length_takeU8 h₁
  dsimp only at h
  split_ifs at h
  · cases h
  · obtain ⟨⟨version, c₂⟩, h₂, h⟩ := Res.bind_eq_ok.1 h
    have h₂ := length_takeU8 h₂
    dsimp only at h
    split_ifs at h
    · cases h
    · cases h
      omega

/-- A state that is read has a log that fits the record. -/
theorem length_decode {s : PersistentState} {b : Bytes} (h : PersistentState.decode b = .ok s) :
    b.length = recordBytes s.log := by
  obtain ⟨c₀, h₀, h⟩ := Res.bind_eq_ok.1 h
  obtain ⟨⟨term, c₁⟩, h₁, h⟩ := Res.bind_eq_ok.1 h
  obtain ⟨⟨flag, c₂⟩, h₂, h⟩ := Res.bind_eq_ok.1 h
  obtain ⟨⟨vote, c₃⟩, h₃, h⟩ := Res.bind_eq_ok.1 h
  obtain ⟨voted, -, h⟩ := Res.bind_eq_ok.1 h
  obtain ⟨⟨count, c₄⟩, h₄, h⟩ := Res.bind_eq_ok.1 h
  obtain ⟨⟨log, c₅⟩, h₅, h⟩ := Res.bind_eq_ok.1 h
  dsimp only at h
  split_ifs at h with hend
  · cases h
    have h₀ := length_decodeHeader h₀
    rw [Cursor.unread_start] at h₀
    have h₁ := length_takeU64 h₁
    have h₂ := length_takeU8 h₂
    have h₃ := length_takeU64 h₃
    have h₄ := length_takeU32 h₄
    have h₅ := length_decodeEntries h₅
    rw [(c₅.atEnd_iff).1 hend, List.length_nil] at h₅
    rw [recordBytes]
    dsimp only
    omega
  · cases h

end Length

end Raft

end NutDb
