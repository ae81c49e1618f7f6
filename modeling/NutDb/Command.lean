/-
  The mutations written to the log (`src/command.rs`).

  `encode` writes a tag and length-prefixed strings; the length is cast to
  `u32` without a check.  `decode_encode`: an encoding that the log accepts
  decodes to the command it came from, because a record below 4 GiB has no
  string for which the cast loses anything.  `encode_of_decode`: nothing else
  is accepted.
-/
import NutDb.Wal

namespace NutDb

open Lib

/-- A command of the log. -/
inductive Command where
  | set (key value : String)
  | delete (key : String)
  | checkpoint
  deriving DecidableEq, Repr

namespace Command

def TAG_SET : UInt8 := 0x01
def TAG_DELETE : UInt8 := 0x02
def TAG_CHECKPOINT : UInt8 := 0x03

/-- `push_bytes`: a length-prefixed byte string (`bytes.len() as u32` keeps the low four bytes). -/
def pushBytes (bytes : Bytes) : Bytes := le 4 bytes.length ++ bytes

/-- `Command::encode`. -/
def encode : Command → Bytes
  | set key value => TAG_SET :: (pushBytes (utf8 key) ++ pushBytes (utf8 value))
  | delete key => TAG_DELETE :: pushBytes (utf8 key)
  | checkpoint => [TAG_CHECKPOINT]

/-- `Cursor::take_u8`. -/
def takeU8 (c : Cursor) : Res (UInt8 × Cursor) :=
  match c.take 1 with
  | some ([b], c') => .ok (b, c')
  | _ => Res.fail .invalidData "unexpected end of command"

/-- `Cursor::take_u32`. -/
def takeU32 (c : Cursor) : Res (ℕ × Cursor) := do
  let (slice, c) ← Res.ofOption .invalidData "unexpected end of command" (c.take 4)
  return (ofLe slice, c)

/-- `Cursor::take_string`. -/
def takeString (c : Cursor) : Res (String × Cursor) := do
  let (len, c) ← takeU32 c
  let (slice, c) ← Res.ofOption .invalidData "command length exceeds record" (c.take len)
  let s ← Res.ofOption .invalidData "key or value is not valid UTF-8" (ofUtf8 slice)
  return (s, c)

/-- The message for an unknown tag, `{other:#04x}`. -/
def unknownTag (tag : UInt8) : String :=
  let digits := Nat.toDigits 16 tag.toNat
  "unknown command tag 0x" ++ String.ofList (List.replicate (2 - digits.length) '0' ++ digits)

/-- `Command::decode`. -/
def decode (bytes : Bytes) : Res Command := do
  let (tag, c) ← takeU8 (.start bytes)
  let (command, c) ←
    if tag = TAG_SET then do
      let (key, c) ← takeString c
      let (value, c) ← takeString c
      pure (Command.set key value, c)
    else if tag = TAG_DELETE then do
      let (key, c) ← takeString c
      pure (Command.delete key, c)
    else if tag = TAG_CHECKPOINT then pure (Command.checkpoint, c)
    else Res.fail .invalidData (unknownTag tag)
  if c.atEnd then return command
  else Res.fail .invalidData "trailing bytes after command"

@[simp] theorem length_pushBytes (b : Bytes) : (pushBytes b).length = 4 + b.length := by
  simp [pushBytes]

theorem takeU8_of_unread {c : Cursor} {b : UInt8} {rest : Bytes} (h : c.unread = b :: rest) :
    ∃ c', takeU8 c = .ok (b, c') ∧ c'.unread = rest := by
  obtain ⟨c', h1, h2⟩ := c.take_of_unread (show c.unread = [b] ++ rest from h)
  exact ⟨c', by simp only [List.length_singleton] at h1; simp [takeU8, h1], h2⟩

theorem takeString_of_unread {c : Cursor} {s : String} {rest : Bytes}
    (hs : (utf8 s).length < 2 ^ 32) (h : c.unread = pushBytes (utf8 s) ++ rest) :
    ∃ c', takeString c = .ok (s, c') ∧ c'.unread = rest := by
  rw [pushBytes, List.append_assoc] at h
  obtain ⟨c₁, h1, h1'⟩ := c.take_of_unread h
  obtain ⟨c₂, h2, h2'⟩ := c₁.take_of_unread h1'
  have hlen : ofLe (le 4 (utf8 s).length) = (utf8 s).length :=
    ofLe_le_of_lt (lt_of_lt_of_le hs (by norm_num))
  rw [length_le] at h1
  refine ⟨c₂, ?_, h2'⟩
  simp only [takeString, takeU32, h1, Res.ofOption_some, Res.ok_bind, Res.pure_eq, hlen, h2,
    ofUtf8_utf8]

/-! ## Exactness -/

section Exact
variable {c c' : Cursor} {b : Bytes}

theorem unread_of_takeU8 {tag : UInt8} (h : takeU8 c = .ok (tag, c')) : c.unread = tag :: c'.unread := by
  unfold takeU8 at h
  split at h
  · rename_i heq
    cases h
    exact (Cursor.unread_of_take heq).1
  · cases h

/-- A string that was read is written in the same way. -/
theorem unread_of_takeString {s : String} (h : takeString c = .ok (s, c')) :
    c.unread = pushBytes (utf8 s) ++ c'.unread := by
  simp only [takeString, takeU32, Res.bind_eq_ok, Res.ofOption_eq_ok] at h
  obtain ⟨⟨len, c₁⟩, ⟨⟨lenSlice, c₁'⟩, h1, heq⟩, ⟨slice, c₂⟩, h2, s', h3, heq'⟩ := h
  cases heq
  cases heq'
  obtain ⟨hread, hlen⟩ := Cursor.unread_of_take h1
  obtain ⟨hread', hlen'⟩ := Cursor.unread_of_take h2
  have hle : le 4 (utf8 s).length = lenSlice := by
    rw [utf8_of_ofUtf8 h3, hlen', ← hlen]
    exact le_ofLe lenSlice
  rw [hread, hread', pushBytes, hle, utf8_of_ofUtf8 h3, List.append_assoc]

/-- The cursor is at the end of what was accepted. -/
theorem eq_of_checked {command command' : Command}
    (h : (if c.atEnd = true then pure command' else Res.fail .invalidData "trailing bytes after command") =
      (.ok command : Res Command)) : command' = command ∧ c.unread = [] := by
  split_ifs at h with hend
  · cases h
    exact ⟨rfl, c.atEnd_iff.1 hend⟩
  · cases h

/-- **What is decoded is the encoding of the command.** -/
theorem encode_of_decode {command : Command} (h : decode b = .ok command) : command.encode = b := by
  simp only [decode] at h
  obtain ⟨⟨tag, c⟩, htag, h⟩ := Res.bind_eq_ok.1 h
  have hb : b = tag :: c.unread := unread_of_takeU8 htag
  dsimp only at h
  split_ifs at h with h1 h2 h3
  · obtain ⟨⟨key, c₁⟩, hkey, h⟩ := Res.bind_eq_ok.1 h
    obtain ⟨⟨value, c₂⟩, hvalue, h⟩ := Res.bind_eq_ok.1 h
    obtain ⟨rfl, hnil⟩ := eq_of_checked h
    rw [hb, h1, unread_of_takeString hkey, unread_of_takeString hvalue, hnil, List.append_nil]
    rfl
  · obtain ⟨⟨key, c₁⟩, hkey, h⟩ := Res.bind_eq_ok.1 h
    obtain ⟨rfl, hnil⟩ := eq_of_checked h
    rw [hb, h2, unread_of_takeString hkey, hnil, List.append_nil]
    rfl
  · obtain ⟨rfl, hnil⟩ := eq_of_checked h
    rw [hb, h3, hnil]
    rfl
  · cases h

/-- The check at the end of `decode`. -/
theorem atEnd_eq {rest : Bytes} (h : c.unread = rest) : c.atEnd = decide (rest = []) := by
  rw [Bool.eq_iff_iff, c.atEnd_iff, h, decide_eq_true_eq]

/-- What follows an encoding is not part of it. -/
theorem decode_append {command : Command} (h : Wal.Fits command.encode) (rest : Bytes) :
    decode (command.encode ++ rest) =
      if rest = [] then .ok command else Res.fail .invalidData "trailing bytes after command" := by
  cases command with
  | set key value =>
    simp only [encode, Wal.Fits, List.length_cons, List.length_append, length_pushBytes] at h
    obtain ⟨c₁, h1, h1'⟩ := takeU8_of_unread (Cursor.unread_start (encode (set key value) ++ rest))
    obtain ⟨c₂, h2, h2'⟩ := takeString_of_unread (by omega) (h1'.trans (List.append_assoc _ _ _))
    obtain ⟨c₃, h3, h3'⟩ := takeString_of_unread (s := value) (by omega) h2'
    simp [decode, h1, h2, h3, atEnd_eq h3']
  | delete key =>
    simp only [encode, Wal.Fits, List.length_cons, length_pushBytes] at h
    obtain ⟨c₁, h1, h1'⟩ := takeU8_of_unread (Cursor.unread_start (encode (delete key) ++ rest))
    obtain ⟨c₂, h2, h2'⟩ := takeString_of_unread (s := key) (by omega) h1'
    simp [decode, h1, h2, atEnd_eq h2', TAG_SET, TAG_DELETE]
  | checkpoint =>
    obtain ⟨c₁, h1, h1'⟩ := takeU8_of_unread (Cursor.unread_start (encode checkpoint ++ rest))
    simp [decode, h1, atEnd_eq h1', TAG_SET, TAG_DELETE, TAG_CHECKPOINT]

end Exact

/-- **A command that the log accepts is read back as written.** -/
theorem decode_encode {c : Command} (h : Wal.Fits c.encode) : decode c.encode = .ok c := by
  have happend := decode_append h []
  rwa [List.append_nil, if_pos rfl] at happend

/-- The checkpoint record always fits. -/
theorem fits_checkpoint : Wal.Fits checkpoint.encode := by decide

/-- **The log means what was written**: an encoding that the log accepts is read back as its command, a record is
    read only as the command that it encodes, and no record continues another one. -/
theorem exact_codec :
    (∀ (command : Command) (frame : Bytes), Wal.append command.encode = .ok frame →
      decode command.encode = .ok command) ∧
    (∀ (b : Bytes) (command : Command), decode b = .ok command → command.encode = b) ∧
    (∀ (b b' : Bytes) (command : Command), decode b = .ok command → decode b' = .ok command → b = b') ∧
    ∀ (command command' : Command) (b rest : Bytes), Wal.Fits command.encode → rest ≠ [] →
      (b = command.encode ++ rest ∨ command.encode = b ++ rest) → decode b ≠ .ok command' := by
  refine ⟨fun command frame h => ?_, fun b command h => encode_of_decode h, fun b b' command h h' => ?_, ?_⟩
  · exact decode_encode (Wal.append_eq_ok.1 h).1
  · rw [← encode_of_decode h, ← encode_of_decode h']
  · rintro command command' b rest hfits hrest (rfl | heq) hdecode
    · rw [decode_append hfits, if_neg hrest] at hdecode
      cases hdecode
    · -- a part of the encoding would be an encoding that continues
      have hb := encode_of_decode hdecode
      have hfits' : Wal.Fits command'.encode := by
        rw [Wal.Fits, hb]
        rw [Wal.Fits, heq, List.length_append] at hfits
        omega
      have hwhole := decode_encode hfits
      rw [heq, ← hb, decode_append hfits', if_neg hrest] at hwhole
      cases hwhole

/-- A record of the log, and what is read from it and around it. -/
theorem exact_codec_set : decode (set "k" "v").encode = .ok (set "k" "v") ∧
    ∀ command, decode ((set "k" "v").encode ++ [0]) ≠ .ok command :=
  ⟨exact_codec.1 _ _ (Wal.append_of_fits (by decide)),
    fun command => exact_codec.2.2.2 (set "k" "v") command _ [0] (by decide) (by decide) (Or.inl rfl)⟩

end Command

end NutDb
