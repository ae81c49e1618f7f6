/-
  The bytes of a Raft state (`PersistentState::decode` and `Cursor` of
  `src/raft/state.rs`).

  `decode` of `Raft/Persist.lean` reads with a cursor that cannot leave its bytes.
  `decodeSliced` is the same loop with the offset that `take` assigns, the slices
  that are taken at it, and the room that is made for the entries; it could panic
  and never does (`decodeSliced_eq`).

  What is decoded is not decoded with more bytes behind it (`decode_append`).  So
  an encoded state is read back, and neither a part of it nor anything longer is
  taken for a state (`persistent_codec`).
-/
import NutDb.Lib.Act
import NutDb.Raft.Sending

namespace NutDb

open Lib

namespace Raft

/-! ## The cursor of the code -/

/-- `Cursor::take`, on the offset: it is assigned when nothing fails.  The end that `checked_add` finds is
    compared with the length, which is below `usize::MAX`. -/
def take (bytes : Bytes) (len : ℕ) : Act ℕ ℕ := do
  let start ← Act.gets fun offset => offset
  let stop ← Act.lift (Res.ofOption .invalidData "raft: state length exceeds record"
    (if start + len ≤ bytes.length then some (start + len) else none))
  Act.modify fun _ => stop
  return start

/-- `bytes[start..stop]`. -/
def slice (bytes : Bytes) (start stop : ℕ) : Res Bytes :=
  if start ≤ stop ∧ stop ≤ bytes.length then .ok ((bytes.drop start).take (stop - start))
  else .error (.panic .index)

/-- `try_into().expect("fixed slice")`. -/
def fixed (n : ℕ) (bytes : Bytes) : Res Bytes :=
  if bytes.length = n then .ok bytes else .error (.panic (.expect "fixed slice"))

/-- `Cursor::u8`. -/
def sliceU8 (bytes : Bytes) : Act ℕ UInt8 := do
  let offset ← take bytes 1
  Act.lift (Res.get bytes offset)

/-- `Cursor::u32`. -/
def sliceU32 (bytes : Bytes) : Act ℕ ℕ := do
  let offset ← take bytes 4
  Act.lift (do
    let field ← slice bytes offset (offset + 4)
    let field ← fixed 4 field
    return ofLe field)

/-- `Cursor::u64`. -/
def sliceU64 (bytes : Bytes) : Act ℕ U64 := do
  let offset ← take bytes 8
  Act.lift (do
    let field ← slice bytes offset (offset + 8)
    let field ← fixed 8 field
    return U64.ofLe field)

/-- `Cursor::bytes`. -/
def sliceBytes (bytes : Bytes) (len : ℕ) : Act ℕ Bytes := do
  let offset ← take bytes len
  Act.lift (slice bytes offset (offset + len))

/-- `Vec::with_capacity` for entries, of 32 bytes each: an allocation has at most `isize::MAX`. -/
def reserveEntries (count : ℕ) : Res Unit := if count * 32 < 2 ^ 63 then .ok () else .error (.panic .capacity)

/-- The loop of `decode` over the entries. -/
def sliceEntries (bytes : Bytes) : ℕ → Act ℕ (List Entry)
  | 0 => pure []
  | count + 1 => do
    let term ← sliceU64 bytes
    let len ← sliceU32 bytes
    let command ← sliceBytes bytes len
    let entries ← sliceEntries bytes count
    return ⟨term, command⟩ :: entries

/-- The header of an encoded state. -/
def sliceHeader (bytes : Bytes) : Act ℕ Unit := do
  let tag ← sliceU8 bytes
  if tag ≠ STATE_TAG then Act.lift (invalidData "raft: bad persistent state header")
  else do
    let version ← sliceU8 bytes
    if version ≠ STATE_VERSION then Act.lift (invalidData "raft: bad persistent state header") else pure ()

/-- `PersistentState::decode`, behind the start of the cursor. -/
def sliceState (bytes : Bytes) : Act ℕ PersistentState := do
  sliceHeader bytes
  let currentTerm ← sliceU64 bytes
  let hasVote ← sliceU8 bytes
  let vote ← sliceU64 bytes
  let votedFor ← Act.lift (decodeVote hasVote vote)
  let count ← sliceU32 bytes
  Act.lift (reserveEntries count)
  let log ← sliceEntries bytes count
  let offset ← Act.gets fun offset => offset
  if offset ≠ bytes.length then Act.lift (invalidData "raft: trailing persistent state bytes")
  else return ⟨currentTerm, votedFor, log⟩

/-- `PersistentState::decode`, with every slice that it takes. -/
def PersistentState.decodeSliced (bytes : Bytes) : Res PersistentState := ((sliceState bytes).run 0).1

/-! ## Every slice is in range -/

/-- The code at the offset of a cursor does what the cursor does. -/
def Tracks {α : Type} (bytes : Bytes) (x : Act ℕ α) (y : Cursor → Res (α × Cursor)) : Prop :=
  ∀ c : Cursor, c.bytes = bytes →
    (∃ a c', y c = .ok (a, c') ∧ c'.bytes = bytes ∧ x.run c.offset = (.ok a, c'.offset)) ∨
      ∃ e offset, y c = .error e ∧ x.run c.offset = (.error e, offset)

section Tracks
variable {α β : Type} {bytes : Bytes} {x : Act ℕ α} {y : Cursor → Res (α × Cursor)}

theorem Tracks.bind {f : α → Act ℕ β} {g : α × Cursor → Res (β × Cursor)} (h : Tracks bytes x y)
    (hf : ∀ a, Tracks bytes (f a) fun c => g (a, c)) : Tracks bytes (x >>= f) fun c => y c >>= g := by
  intro c hc
  dsimp only
  rcases h c hc with ⟨a, c', hy, hc', hx⟩ | ⟨e, offset, hy, hx⟩
  · rw [hy, Res.ok_bind, Act.run_bind_ok hx]
    exact hf a c' hc'
  · rw [hy, Act.run_bind_error hx]
    exact Or.inr ⟨e, offset, rfl, rfl⟩

theorem tracks_pure (a : α) : Tracks bytes (pure a) fun c => .ok (a, c) :=
  fun c hc => Or.inl ⟨a, c, rfl, hc, rfl⟩

theorem run_take (bytes : Bytes) (len offset : ℕ) : (take bytes len).run offset =
    if offset + len ≤ bytes.length then (.ok offset, offset + len)
    else (invalidData "raft: state length exceeds record", offset) := by
  unfold take
  rw [Act.run_bind_ok (Act.run_gets _ _)]
  split_ifs <;> rfl

/-- Bytes that were taken, and what is made of them. -/
theorem tracks_take {len : ℕ} {read : ℕ → Res α} (make : Bytes → Res α)
    (h : ∀ offset, offset + len ≤ bytes.length → read offset = make ((bytes.drop offset).take len)) :
    Tracks bytes (take bytes len >>= fun offset => Act.lift (read offset)) fun c => do
      let (field, c) ← takeBytes c len
      let a ← make field
      return (a, c) := by
  rintro ⟨bytes, offset, hin⟩ rfl
  have hrun := run_take bytes len offset
  dsimp only
  unfold takeBytes Cursor.take
  by_cases hle : offset + len ≤ bytes.length
  · rw [if_pos hle] at hrun
    rw [Act.run_bind_ok hrun, dif_pos hle, Res.ofOption_some, Res.ok_bind, Act.run_lift, h offset hle]
    dsimp only
    cases make ((bytes.drop offset).take len) with
    | error e => exact Or.inr ⟨e, _, rfl, rfl⟩
    | ok a => exact Or.inl ⟨a, ⟨bytes, offset + len, hle⟩, rfl, rfl, rfl⟩
  · rw [if_neg hle] at hrun
    rw [Act.run_bind_error hrun, dif_neg hle]
    exact Or.inr ⟨_, _, rfl, rfl⟩

/-- A slice behind a check. -/
theorem slice_checked {offset len : ℕ} (h : offset + len ≤ bytes.length) :
    slice bytes offset (offset + len) = .ok ((bytes.drop offset).take len) := by
  rw [slice, if_pos ⟨Nat.le_add_right _ _, h⟩, Nat.add_sub_cancel_left]

theorem fixed_checked {offset len : ℕ} (h : offset + len ≤ bytes.length) :
    fixed len ((bytes.drop offset).take len) = .ok ((bytes.drop offset).take len) := by
  refine if_pos ?_
  rw [List.length_take, List.length_drop]
  omega

theorem tracks_u8 (bytes : Bytes) : Tracks bytes (sliceU8 bytes) takeU8 := by
  refine tracks_take (fun field => Res.get field 0) fun offset h => ?_
  have hget : bytes[offset]? = ((bytes.drop offset).take 1)[0]? := by
    rw [List.getElem?_take_of_lt Nat.one_pos, List.getElem?_drop, Nat.add_zero]
  rw [Res.get, Res.get, hget]

theorem tracks_u32 (bytes : Bytes) : Tracks bytes (sliceU32 bytes) takeU32 := by
  refine tracks_take (fun field => .ok (ofLe field)) fun offset h => ?_
  rw [slice_checked h, Res.ok_bind, fixed_checked h]
  rfl

theorem tracks_u64 (bytes : Bytes) : Tracks bytes (sliceU64 bytes) takeU64 := by
  refine tracks_take (fun field => .ok (U64.ofLe field)) fun offset h => ?_
  rw [slice_checked h, Res.ok_bind, fixed_checked h]
  rfl

theorem tracks_bytes (bytes : Bytes) (len : ℕ) :
    Tracks bytes (sliceBytes bytes len) fun c => takeBytes c len := by
  have htake : Tracks bytes (sliceBytes bytes len) _ :=
    tracks_take (fun field => .ok field) fun offset h => slice_checked h
  intro c hc
  cases hy : takeBytes c len with
  | error e => simpa [hy] using htake c hc
  | ok p => simpa [hy] using htake c hc

theorem tracks_entries (bytes : Bytes) (count : ℕ) :
    Tracks bytes (sliceEntries bytes count) (decodeEntries count) := by
  induction count with
  | zero => exact tracks_pure []
  | succ count ih =>
    refine (tracks_u64 bytes).bind fun term => (tracks_u32 bytes).bind fun len => ?_
    exact (tracks_bytes bytes len).bind fun command => ih.bind fun entries => tracks_pure _

/-- The end of the code, which leaves the cursor. -/
theorem Tracks.finish {f : α → Act ℕ β} {g : α × Cursor → Res β} (h : Tracks bytes x y)
    (hf : ∀ a c c₀, y c₀ = .ok (a, c) → c.bytes = bytes → ((f a).run c.offset).1 = g (a, c)) (c : Cursor)
    (hc : c.bytes = bytes) : ((x >>= f).run c.offset).1 = y c >>= g := by
  rcases h c hc with ⟨a, c', hy, hc', hx⟩ | ⟨e, offset, hy, hx⟩
  · rw [hy, Res.ok_bind, Act.run_bind_ok hx]
    exact hf a c' c hy hc'
  · rw [hy, Act.run_bind_error hx]
    rfl

theorem tracks_header (bytes : Bytes) :
    Tracks bytes (sliceHeader bytes) fun c => decodeHeader c >>= fun c => .ok ((), c) := by
  have hheader : Tracks bytes (sliceHeader bytes) fun c => takeU8 c >>= fun p =>
      if p.1 ≠ STATE_TAG then invalidData "raft: bad persistent state header"
      else takeU8 p.2 >>= fun q =>
        if q.1 ≠ STATE_VERSION then invalidData "raft: bad persistent state header" else .ok ((), q.2) := by
    refine (tracks_u8 bytes).bind fun tag => ?_
    dsimp only
    split_ifs
    · exact fun c _ => Or.inr ⟨_, _, rfl, rfl⟩
    · refine (tracks_u8 bytes).bind fun version => ?_
      dsimp only
      split_ifs
      · exact fun c _ => Or.inr ⟨_, _, rfl, rfl⟩
      · exact tracks_pure ()
  have heq : ∀ c, (decodeHeader c >>= fun c => .ok ((), c)) = takeU8 c >>= fun p =>
      if p.1 ≠ STATE_TAG then invalidData "raft: bad persistent state header"
      else takeU8 p.2 >>= fun q =>
        if q.1 ≠ STATE_VERSION then invalidData "raft: bad persistent state header" else .ok ((), q.2) := by
    intro c
    unfold decodeHeader
    rcases takeU8 c with e | ⟨tag, c₁⟩
    · rfl
    · rw [Res.ok_bind, Res.ok_bind]
      dsimp only
      split_ifs
      · rfl
      · rcases takeU8 c₁ with e | ⟨version, c₂⟩
        · rfl
        · rw [Res.ok_bind, Res.ok_bind]
          dsimp only
          split_ifs <;> rfl
  intro c hc
  dsimp only
  rw [heq c]
  exact hheader c hc

end Tracks

/-- A length field is below `2^32`. -/
theorem lt_of_takeU32 {c c' : Cursor} {n : ℕ} (h : takeU32 c = .ok (n, c')) : n < 2 ^ 32 := by
  obtain ⟨⟨field, c₁⟩, hfield, h⟩ := Res.bind_eq_ok.1 h
  cases h
  obtain ⟨-, hlen⟩ := Cursor.unread_of_take (Res.ofOption_eq_ok.1 hfield)
  have hlt := ofLe_lt field
  rw [hlen] at hlt
  exact lt_of_lt_of_le hlt (by norm_num)

/-- What `decode` reads behind the header. -/
def decodeBody (c : Cursor) : Res PersistentState := do
  let (currentTerm, c) ← takeU64 c
  let (hasVote, c) ← takeU8 c
  let (vote, c) ← takeU64 c
  let votedFor ← decodeVote hasVote vote
  let (count, c) ← takeU32 c
  let (log, c) ← decodeEntries count c
  if c.atEnd then return ⟨currentTerm, votedFor, log⟩
  else invalidData "raft: trailing persistent state bytes"

theorem decode_eq (bytes : Bytes) : PersistentState.decode bytes = decodeHeader (.start bytes) >>= decodeBody := rfl

/-- **Every slice is in range**, and there is room for the entries. -/
theorem decodeSliced_eq (bytes : Bytes) : PersistentState.decodeSliced bytes = PersistentState.decode bytes := by
  have hheader : decodeHeader (.start bytes) >>= decodeBody =
      (decodeHeader (.start bytes) >>= fun c => .ok ((), c)) >>= fun p => decodeBody p.2 := by
    cases decodeHeader (.start bytes) <;> rfl
  rw [decode_eq, hheader]
  refine (tracks_header bytes).finish (fun _ c _ _ hc => ?_) (.start bytes) rfl
  refine (tracks_u64 bytes).finish (fun currentTerm c _ _ hc => ?_) c hc
  refine (tracks_u8 bytes).finish (fun hasVote c _ _ hc => ?_) c hc
  refine (tracks_u64 bytes).finish (fun vote c _ _ hc => ?_) c hc
  dsimp only
  cases decodeVote hasVote vote with
  | error e => rfl
  | ok votedFor =>
    refine (tracks_u32 bytes).finish (fun count c _ hcount hc => ?_) c hc
    have hlt := lt_of_takeU32 hcount
    have hreserve : reserveEntries count = .ok () := if_pos (by omega)
    rw [hreserve]
    refine (tracks_entries bytes count).finish (fun log c _ _ hc => ?_) c hc
    obtain rfl := hc
    rw [Act.run_bind_ok (Act.run_gets _ _)]
    dsimp only
    by_cases hend : c.offset = c.bytes.length
    · rw [if_neg (not_not.2 hend), Cursor.atEnd, if_pos (beq_iff_eq.2 hend)]
      rfl
    · rw [if_pos hend, Cursor.atEnd, if_neg (mt beq_iff_eq.1 hend)]
      rfl

/-! ## Decoding comes to an end -/

theorem returns_takeBytes (c : Cursor) (n : ℕ) : Res.Returns (takeBytes c n) := Res.returns_ofOption _ _ _

theorem returns_takeU8 (c : Cursor) : Res.Returns (takeU8 c) := by
  unfold takeU8
  cases htake : takeBytes c 1 with
  | error e =>
    have hret := returns_takeBytes c 1
    rw [htake] at hret
    exact fun p hp => hret p (by cases hp; rfl)
  | ok p =>
    obtain ⟨-, hlen⟩ := Cursor.unread_of_take (Res.ofOption_eq_ok.1 htake)
    obtain ⟨b, hb⟩ := List.length_eq_one_iff.1 hlen
    rw [Res.ok_bind]
    dsimp only
    rw [hb]
    exact Res.returns_ok _

theorem returns_takeU32 (c : Cursor) : Res.Returns (takeU32 c) :=
  (returns_takeBytes c 4).bind fun _ => Res.returns_ok _

theorem returns_takeU64 (c : Cursor) : Res.Returns (takeU64 c) :=
  (returns_takeBytes c 8).bind fun _ => Res.returns_ok _

theorem returns_decodeEntries (count : ℕ) (c : Cursor) : Res.Returns (decodeEntries count c) := by
  induction count generalizing c with
  | zero => exact Res.returns_ok _
  | succ count ih =>
    refine (returns_takeU64 c).bind fun p => (returns_takeU32 p.2).bind fun q => ?_
    exact (returns_takeBytes q.2 q.1).bind fun r => (ih r.2).bind fun _ => Res.returns_ok _

theorem returns_decodeVote (hasVote : UInt8) (vote : U64) : Res.Returns (decodeVote hasVote vote) := by
  unfold decodeVote
  split_ifs
  · exact Res.returns_ok _
  · exact Res.returns_ok _
  · exact Res.returns_fail _ _

theorem returns_decodeHeader (c : Cursor) : Res.Returns (decodeHeader c) := by
  refine (returns_takeU8 c).bind fun p => ?_
  dsimp only
  split_ifs
  · exact Res.returns_fail _ _
  · refine (returns_takeU8 p.2).bind fun q => ?_
    split_ifs
    · exact Res.returns_fail _ _
    · exact Res.returns_ok _

/-- **Decoding returns**, on any bytes. -/
theorem returns_decode (bytes : Bytes) : Res.Returns (PersistentState.decode bytes) := by
  refine (returns_decodeHeader _).bind fun c => (returns_takeU64 c).bind fun p => ?_
  refine (returns_takeU8 p.2).bind fun q => (returns_takeU64 q.2).bind fun r => ?_
  refine (returns_decodeVote q.1 r.1).bind fun votedFor => (returns_takeU32 r.2).bind fun t => ?_
  refine (returns_decodeEntries t.1 t.2).bind fun u => ?_
  dsimp only
  split_ifs
  · exact Res.returns_ok _
  · exact Res.returns_fail _ _

/-! ## More bytes -/

/-- The cursor with more bytes behind its own. -/
def behind (c : Cursor) (extra : Bytes) : Cursor :=
  ⟨c.bytes ++ extra, c.offset, by
    rw [List.length_append]
    exact c.inRange.trans (Nat.le_add_right _ _)⟩

/-- What is read is read in the same way when there are more bytes. -/
def Stable {α : Type} (y : Cursor → Res (α × Cursor)) : Prop :=
  ∀ c a c', y c = .ok (a, c') → ∀ extra, y (behind c extra) = .ok (a, behind c' extra)

section Stable
variable {α β : Type} {y : Cursor → Res (α × Cursor)}

theorem stable_pure (a : α) : Stable fun c => .ok (a, c) := by
  intro c b c' h extra
  cases h
  rfl

theorem Stable.bind {g : α × Cursor → Res (β × Cursor)} (h : Stable y) (hg : ∀ a, Stable fun c => g (a, c)) :
    Stable fun c => y c >>= g := by
  intro c b c' hrun extra
  obtain ⟨⟨a, c₁⟩, hy, hrest⟩ := Res.bind_eq_ok.1 hrun
  dsimp only
  rw [h c a c₁ hy extra, Res.ok_bind]
  exact hg a c₁ b c' hrest extra

theorem Stable.lift {r : Res α} {g : α → Cursor → Res (β × Cursor)} (hg : ∀ a, Stable (g a)) :
    Stable fun c => r >>= fun a => g a c := by
  intro c b c' hrun extra
  obtain ⟨a, hr, hrest⟩ := Res.bind_eq_ok.1 hrun
  dsimp only
  rw [hr, Res.ok_bind]
  exact hg a c b c' hrest extra

theorem stable_takeBytes (n : ℕ) : Stable fun c => takeBytes c n := by
  intro c xs c' h extra
  have htake := Res.ofOption_eq_ok.1 h
  unfold Cursor.take at htake
  split_ifs at htake with hle
  cases htake
  have hlen : (behind c extra).offset + n ≤ (behind c extra).bytes.length := by
    change c.offset + n ≤ (c.bytes ++ extra).length
    rw [List.length_append]
    exact hle.trans (Nat.le_add_right _ _)
  have hfield : ((c.bytes ++ extra).drop c.offset).take n = (c.bytes.drop c.offset).take n := by
    rw [List.drop_append_of_le_length c.inRange, List.take_append_of_le_length]
    rw [List.length_drop]
    omega
  dsimp only
  unfold takeBytes Cursor.take
  rw [dif_pos hlen]
  exact congrArg (fun xs => Except.ok (xs, _)) hfield

theorem stable_takeU8 : Stable takeU8 := (stable_takeBytes 1).bind fun _ => .lift stable_pure

theorem stable_takeU32 : Stable takeU32 := (stable_takeBytes 4).bind fun _ => stable_pure _

theorem stable_takeU64 : Stable takeU64 := (stable_takeBytes 8).bind fun _ => stable_pure _

theorem stable_decodeEntries (count : ℕ) : Stable (decodeEntries count) := by
  induction count with
  | zero => exact stable_pure []
  | succ count ih =>
    refine stable_takeU64.bind fun term => stable_takeU32.bind fun len => ?_
    exact (stable_takeBytes len).bind fun command => ih.bind fun entries => stable_pure _

theorem stable_decodeHeader {c c' : Cursor} (h : decodeHeader c = .ok c') (extra : Bytes) :
    decodeHeader (behind c extra) = .ok (behind c' extra) := by
  obtain ⟨⟨tag, c₁⟩, htag, h⟩ := Res.bind_eq_ok.1 h
  dsimp only at h
  split_ifs at h with hwrong
  · cases h
  · obtain ⟨⟨version, _⟩, hversion, h⟩ := Res.bind_eq_ok.1 h
    dsimp only at h
    split_ifs at h with hold
    · cases h
    · cases h
      unfold decodeHeader
      rw [stable_takeU8 c tag c₁ htag extra, Res.ok_bind]
      dsimp only
      rw [if_neg hwrong, stable_takeU8 c₁ version c' hversion extra, Res.ok_bind]
      dsimp only
      rw [if_neg hold]
      rfl

end Stable

/-- **What is decoded is not decoded with more bytes behind it.** -/
theorem decode_append {bytes extra : Bytes} {s : PersistentState} (h : PersistentState.decode bytes = .ok s)
    (hextra : extra ≠ []) :
    PersistentState.decode (bytes ++ extra) = invalidData "raft: trailing persistent state bytes" := by
  obtain ⟨c, hheader, h⟩ := Res.bind_eq_ok.1 h
  obtain ⟨⟨term, c₁⟩, hterm, h⟩ := Res.bind_eq_ok.1 h
  obtain ⟨⟨hasVote, c₂⟩, hhas, h⟩ := Res.bind_eq_ok.1 h
  obtain ⟨⟨vote, c₃⟩, hvote, h⟩ := Res.bind_eq_ok.1 h
  obtain ⟨votedFor, hvoted, h⟩ := Res.bind_eq_ok.1 h
  obtain ⟨⟨count, c₄⟩, hcount, h⟩ := Res.bind_eq_ok.1 h
  obtain ⟨⟨log, c₅⟩, hlog, h⟩ := Res.bind_eq_ok.1 h
  dsimp only at h
  split_ifs at h with hend
  · -- the cursor is where it was, but now before the end
    have hmore : (behind c₅ extra).atEnd = false := by
      have hoffset : c₅.offset = c₅.bytes.length := beq_iff_eq.1 hend
      have hlen := List.length_pos_iff.2 hextra
      refine beq_eq_false_iff_ne.2 ?_
      change c₅.offset ≠ (c₅.bytes ++ extra).length
      rw [List.length_append]
      omega
    rw [decode_eq, show Cursor.start (bytes ++ extra) = behind (.start bytes) extra from rfl,
      stable_decodeHeader hheader extra, Res.ok_bind, decodeBody, stable_takeU64 c term c₁ hterm extra, Res.ok_bind]
    dsimp only
    rw [stable_takeU8 c₁ hasVote c₂ hhas extra, Res.ok_bind]
    dsimp only
    rw [stable_takeU64 c₂ vote c₃ hvote extra, Res.ok_bind]
    dsimp only
    rw [hvoted, Res.ok_bind, stable_takeU32 c₃ count c₄ hcount extra, Res.ok_bind]
    dsimp only
    rw [stable_decodeEntries count c₄ log c₅ hlog extra, Res.ok_bind]
    dsimp only
    rw [hmore]
    rfl
  · cases h

/-- A part of an encoded state is none. -/
theorem decode_prefix {s : PersistentState} {b part : Bytes} (h : s.encode = .ok b) (hpart : part <+: b)
    (hne : part ≠ b) : ∃ e, PersistentState.decode part = .error (.io e) := by
  obtain ⟨rest, rfl⟩ := hpart
  have hrest : rest ≠ [] := by
    rintro rfl
    exact hne (List.append_nil part).symm
  rcases (returns_decode part).cases with ⟨s', hs'⟩ | ⟨e, he⟩
  · have hwhole := PersistentState.decode_encode h
    rw [decode_append hs' hrest] at hwhole
    cases hwhole
  · exact ⟨e, he⟩

/-- **The persistent state survives exactly**: what is encoded is read back, no proper part of it and
    nothing longer is accepted, and on any bytes no read is out of range. -/
theorem persistent_codec :
    (∀ (s : PersistentState) b, s.encode = .ok b → PersistentState.decode b = .ok s ∧
      (∀ part, part <+: b → part ≠ b → ∃ e, PersistentState.decode part = .error (.io e)) ∧
      ∀ extra, extra ≠ [] → ∃ e, PersistentState.decode (b ++ extra) = .error (.io e)) ∧
    ∀ bytes, PersistentState.decodeSliced bytes = PersistentState.decode bytes ∧
      Res.Returns (PersistentState.decodeSliced bytes) := by
  refine ⟨fun s b h => ?_, fun bytes => ⟨decodeSliced_eq bytes, ?_⟩⟩
  · have hdecode := PersistentState.decode_encode h
    exact ⟨hdecode, fun part => decode_prefix h, fun extra hextra => ⟨_, decode_append hdecode hextra⟩⟩
  · rw [decodeSliced_eq]
    exact returns_decode bytes

/-- A state with a vote and two entries, one of them empty. -/
theorem persistent_codec_vote : ∃ b, (PersistentState.mk 3 (some 2) [⟨1, [7]⟩, ⟨3, []⟩]).encode = .ok b ∧
    PersistentState.decode b = .ok ⟨3, some 2, [⟨1, [7]⟩, ⟨3, []⟩]⟩ ∧
    ∃ e, PersistentState.decode (b ++ [0]) = .error (.io e) := by
  obtain ⟨b, hb⟩ : ∃ b, (PersistentState.mk 3 (some 2) [⟨1, [7]⟩, ⟨3, []⟩]).encode = .ok b := ⟨_, rfl⟩
  obtain ⟨hdecode, -, hextra⟩ := persistent_codec.1 _ b hb
  exact ⟨b, hb, hdecode, hextra [0] (by decide)⟩

end Raft

end NutDb
