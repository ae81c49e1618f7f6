/-
  The records of the transaction log (`TxnRecord` of `src/txn.rs`).

  A record is a tag, the transaction, and the fields of its kind.  Unlike
  `Command::encode`, the encoder checks that a string fits its length field.
-/
import NutDb.Command
import NutDb.Mvcc.Version

namespace NutDb

open Lib

namespace Mvcc

/-- `TxnRecord`. -/
inductive TxnRecord where
  | begin (txn snapshot : U64)
  | set (txn : U64) (key value : String)
  | delete (txn : U64) (key : String)
  | commit (txn commitTs : U64)
  | abort (txn : U64)
  deriving DecidableEq, Repr

def TAG_BEGIN : UInt8 := 0x10
def TAG_SET : UInt8 := 0x11
def TAG_DELETE : UInt8 := 0x12
def TAG_COMMIT : UInt8 := 0x13
def TAG_ABORT : UInt8 := 0x14

/-- `invalid`. -/
def invalid {α : Type} (message : String) : Res α := Res.fail .invalidData message

/-- `put_string`. -/
def putString (value : String) : Res Bytes :=
  if (utf8 value).length < 2 ^ 32 then .ok (le 4 (utf8 value).length ++ utf8 value)
  else Res.fail .invalidInput "mvcc: string too large"

/-- `Cursor::u8`. -/
def cursorU8 (c : Cursor) : Res (UInt8 × Cursor) :=
  match c.take 1 with
  | some ([b], c') => .ok (b, c')
  | _ => invalid "mvcc: short record"

/-- `Cursor::u64`. -/
def cursorU64 (c : Cursor) : Res (U64 × Cursor) := do
  let (slice, c) ← Res.ofOption .invalidData "mvcc: short u64" (c.take 8)
  return (U64.ofLe slice, c)

/-- `Cursor::string`. -/
def cursorString (c : Cursor) : Res (String × Cursor) := do
  let (slice, c) ← Res.ofOption .invalidData "mvcc: short string length" (c.take 4)
  let (slice, c) ← Res.ofOption .invalidData "mvcc: string exceeds record" (c.take (ofLe slice))
  let value ← Res.ofOption .invalidData "mvcc: string is not UTF-8" (ofUtf8 slice)
  return (value, c)

namespace TxnRecord

/-- `TxnRecord::encode`. -/
def encode : TxnRecord → Res Bytes
  | begin txn snapshot => .ok (TAG_BEGIN :: (txn.toLe ++ snapshot.toLe))
  | set txn key value => do
    let key ← putString key
    let value ← putString value
    return TAG_SET :: (txn.toLe ++ key ++ value)
  | delete txn key => do
    let key ← putString key
    return TAG_DELETE :: (txn.toLe ++ key)
  | commit txn commitTs => .ok (TAG_COMMIT :: (txn.toLe ++ commitTs.toLe))
  | abort txn => .ok (TAG_ABORT :: txn.toLe)

/-- The fields of a record after its tag and its transaction. -/
def decodeFields (tag : UInt8) (txn : U64) (c : Cursor) : Res (TxnRecord × Cursor) :=
  if tag = TAG_BEGIN then do
    let (snapshot, c) ← cursorU64 c
    return (begin txn snapshot, c)
  else if tag = TAG_SET then do
    let (key, c) ← cursorString c
    let (value, c) ← cursorString c
    return (set txn key value, c)
  else if tag = TAG_DELETE then do
    let (key, c) ← cursorString c
    return (delete txn key, c)
  else if tag = TAG_COMMIT then do
    let (commitTs, c) ← cursorU64 c
    return (commit txn commitTs, c)
  else if tag = TAG_ABORT then return (abort txn, c)
  else invalid "mvcc: unknown record tag"

/-- `TxnRecord::decode`. -/
def decode (bytes : Bytes) : Res TxnRecord := do
  let (tag, c) ← cursorU8 (.start bytes)
  let (txn, c) ← cursorU64 c
  let (record, c) ← decodeFields tag txn c
  if c.atEnd then return record else invalid "mvcc: trailing record bytes"

end TxnRecord

/-! ## Round trip -/

section Cursor
variable {c : Cursor} {rest : Bytes}

theorem cursorU8_of_unread {b : UInt8} (h : c.unread = b :: rest) :
    ∃ c', cursorU8 c = .ok (b, c') ∧ c'.unread = rest := by
  obtain ⟨c', h1, h2⟩ := c.take_of_unread (show c.unread = [b] ++ rest from h)
  exact ⟨c', by simp only [List.length_singleton] at h1; simp [cursorU8, h1], h2⟩

theorem cursorU64_of_unread {a : U64} (h : c.unread = a.toLe ++ rest) :
    ∃ c', cursorU64 c = .ok (a, c') ∧ c'.unread = rest := by
  obtain ⟨c', h1, h2⟩ := c.take_of_unread h
  rw [U64.length_toLe] at h1
  exact ⟨c', by simp [cursorU64, h1], h2⟩

theorem putString_eq_ok {s : String} {b : Bytes} : putString s = .ok b ↔
    (utf8 s).length < 2 ^ 32 ∧ b = le 4 (utf8 s).length ++ utf8 s := by
  unfold putString
  split_ifs with h
  · rw [Except.ok.injEq]
    exact ⟨fun h' => ⟨h, h'.symm⟩, fun h' => h'.2.symm⟩
  · exact ⟨fun h' => (nomatch h'), fun h' => absurd h'.1 h⟩

theorem cursorString_of_unread {s : String} {b : Bytes} (hb : putString s = .ok b)
    (h : c.unread = b ++ rest) : ∃ c', cursorString c = .ok (s, c') ∧ c'.unread = rest := by
  obtain ⟨hs, rfl⟩ := putString_eq_ok.1 hb
  rw [List.append_assoc] at h
  obtain ⟨c₁, h1, h1'⟩ := c.take_of_unread h
  obtain ⟨c₂, h2, h2'⟩ := c₁.take_of_unread h1'
  have hlen : ofLe (le 4 (utf8 s).length) = (utf8 s).length :=
    ofLe_le_of_lt (lt_of_lt_of_le hs (by norm_num))
  rw [length_le] at h1
  refine ⟨c₂, ?_, h2'⟩
  simp only [cursorString, h1, Res.ofOption_some, Res.ok_bind, Res.pure_eq, hlen, h2, ofUtf8_utf8]

end Cursor

namespace TxnRecord

/-- The tag and the transaction of a record are read first. -/
theorem decode_eq {tag : UInt8} {txn : U64} {fields : Bytes} {record : TxnRecord}
    (h : ∀ c : Cursor, c.unread = fields →
      ∃ c', decodeFields tag txn c = .ok (record, c') ∧ c'.unread = []) :
    decode (tag :: (txn.toLe ++ fields)) = .ok record := by
  obtain ⟨c₁, h1, h1'⟩ := cursorU8_of_unread (Cursor.unread_start (tag :: (txn.toLe ++ fields)))
  obtain ⟨c₂, h2, h2'⟩ := cursorU64_of_unread h1'
  obtain ⟨c₃, h3, h3'⟩ := h c₂ h2'
  simp [decode, h1, h2, h3, (c₃.atEnd_iff).2 h3']

/-- **A record is read back as written.** -/
theorem decode_encode {record : TxnRecord} {b : Bytes} (h : record.encode = .ok b) :
    decode b = .ok record := by
  cases record with
  | begin txn snapshot =>
    cases h
    refine decode_eq fun c hc => ?_
    obtain ⟨c', h1, h1'⟩ := cursorU64_of_unread (hc.trans (List.append_nil _).symm)
    exact ⟨c', by simp [decodeFields, h1], h1'⟩
  | set txn key value =>
    simp only [encode, Res.bind_eq_ok] at h
    obtain ⟨k, hk, v, hv, h⟩ := h
    cases h
    rw [List.append_assoc]
    refine decode_eq fun c hc => ?_
    obtain ⟨c₁, h1, h1'⟩ := cursorString_of_unread hk hc
    obtain ⟨c₂, h2, h2'⟩ := cursorString_of_unread hv (h1'.trans (List.append_nil _).symm)
    exact ⟨c₂, by simp [decodeFields, h1, h2, TAG_BEGIN, TAG_SET], h2'⟩
  | delete txn key =>
    simp only [encode, Res.bind_eq_ok] at h
    obtain ⟨k, hk, h⟩ := h
    cases h
    refine decode_eq fun c hc => ?_
    obtain ⟨c₁, h1, h1'⟩ := cursorString_of_unread hk (hc.trans (List.append_nil _).symm)
    exact ⟨c₁, by simp [decodeFields, h1, TAG_BEGIN, TAG_SET, TAG_DELETE], h1'⟩
  | commit txn commitTs =>
    cases h
    refine decode_eq fun c hc => ?_
    obtain ⟨c', h1, h1'⟩ := cursorU64_of_unread (hc.trans (List.append_nil _).symm)
    exact ⟨c', by simp [decodeFields, h1, TAG_BEGIN, TAG_SET, TAG_DELETE, TAG_COMMIT], h1'⟩
  | abort txn =>
    cases h
    show decode (TAG_ABORT :: txn.toLe) = .ok (abort txn)
    rw [← List.append_nil txn.toLe]
    refine decode_eq fun c hc => ⟨c, ?_, hc⟩
    simp [decodeFields, TAG_BEGIN, TAG_SET, TAG_DELETE, TAG_COMMIT, TAG_ABORT]

end TxnRecord

/-! ## Exactness -/

section Exact
variable {c c' : Cursor} {b : Bytes}

theorem unread_of_cursorU8 {tag : UInt8} (h : cursorU8 c = .ok (tag, c')) : c.unread = tag :: c'.unread := by
  unfold cursorU8 at h
  split at h
  · rename_i heq
    cases h
    exact (Cursor.unread_of_take heq).1
  · cases h

theorem unread_of_cursorU64 {a : U64} (h : cursorU64 c = .ok (a, c')) : c.unread = a.toLe ++ c'.unread := by
  obtain ⟨⟨slice, c₁⟩, htake, heq⟩ := Res.bind_eq_ok.1 h
  cases heq
  obtain ⟨hread, hlen⟩ := Cursor.unread_of_take (Res.ofOption_eq_ok.1 htake)
  rw [hread, U64.toLe_ofLe hlen]

/-- A string that was read is written in the same way. -/
theorem unread_of_cursorString {s : String} (h : cursorString c = .ok (s, c')) :
    ∃ bytes, putString s = .ok bytes ∧ c.unread = bytes ++ c'.unread := by
  simp only [cursorString, Res.bind_eq_ok, Res.ofOption_eq_ok] at h
  obtain ⟨⟨lenSlice, c₁⟩, h1, ⟨slice, c₂⟩, h2, s', h3, heq⟩ := h
  cases heq
  obtain ⟨hread, hlen⟩ := Cursor.unread_of_take h1
  obtain ⟨hread', hlen'⟩ := Cursor.unread_of_take h2
  have hutf8 : (utf8 s).length = ofLe lenSlice := by rw [utf8_of_ofUtf8 h3, hlen']
  have hle : le 4 (utf8 s).length = lenSlice := by
    rw [hutf8, ← hlen]
    exact le_ofLe lenSlice
  have hlt : (utf8 s).length < 2 ^ 32 := by
    have hbound := ofLe_lt lenSlice
    rw [hlen] at hbound
    rw [hutf8]
    exact hbound.trans_eq (by norm_num)
  refine ⟨_, putString_eq_ok.2 ⟨hlt, rfl⟩, ?_⟩
  rw [hread, hread', hle, utf8_of_ofUtf8 h3, List.append_assoc]

end Exact

namespace TxnRecord

/-- What was read after the tag and the transaction. -/
theorem unread_of_decodeFields {tag : UInt8} {txn : U64} {c c' : Cursor} {record : TxnRecord}
    (h : decodeFields tag txn c = .ok (record, c')) (hend : c'.unread = []) :
    record.encode = .ok (tag :: (txn.toLe ++ c.unread)) := by
  unfold decodeFields at h
  split_ifs at h with h1 h2 h3 h4 h5
  · obtain ⟨⟨snapshot, c₁⟩, hsnap, heq⟩ := Res.bind_eq_ok.1 h
    cases heq
    rw [unread_of_cursorU64 hsnap, hend, List.append_nil, h1]
    rfl
  · obtain ⟨⟨key, c₁⟩, hkey, h⟩ := Res.bind_eq_ok.1 h
    obtain ⟨⟨value, c₂⟩, hvalue, heq⟩ := Res.bind_eq_ok.1 h
    cases heq
    obtain ⟨k, hk, hread⟩ := unread_of_cursorString hkey
    obtain ⟨v, hv, hread'⟩ := unread_of_cursorString hvalue
    rw [hread, hread', hend, List.append_nil, h2, encode, hk, Res.ok_bind, hv, Res.ok_bind, List.append_assoc]
    rfl
  · obtain ⟨⟨key, c₁⟩, hkey, heq⟩ := Res.bind_eq_ok.1 h
    cases heq
    obtain ⟨k, hk, hread⟩ := unread_of_cursorString hkey
    rw [hread, hend, List.append_nil, h3, encode, hk]
    rfl
  · obtain ⟨⟨commitTs, c₁⟩, hts, heq⟩ := Res.bind_eq_ok.1 h
    cases heq
    rw [unread_of_cursorU64 hts, hend, List.append_nil, h4]
    rfl
  · cases h
    rw [hend, List.append_nil, h5]
    rfl
  · cases h

/-- **What is decoded is the encoding of the record.** -/
theorem encode_of_decode {record : TxnRecord} {b : Bytes} (h : decode b = .ok record) :
    record.encode = .ok b := by
  obtain ⟨⟨tag, c⟩, htag, h⟩ := Res.bind_eq_ok.1 h
  obtain ⟨⟨txn, c₁⟩, htxn, h⟩ := Res.bind_eq_ok.1 h
  obtain ⟨⟨record', c₂⟩, hfields, h⟩ := Res.bind_eq_ok.1 h
  dsimp only at h
  split_ifs at h with hend
  · cases h
    have hb : b = tag :: (txn.toLe ++ c₁.unread) := by
      rw [← unread_of_cursorU64 htxn, ← unread_of_cursorU8 htag]
      rfl
    rw [hb]
    exact unread_of_decodeFields hfields (c₂.atEnd_iff.1 hend)
  · cases h

end TxnRecord

/-! ## Slices -/

/-- `bytes[start..stop]`. -/
def sliceOf (bytes : Bytes) (start stop : ℕ) : Res Bytes :=
  if start ≤ stop ∧ stop ≤ bytes.length then .ok ((bytes.drop start).take (stop - start))
  else .error (.panic .index)

/-- The checked end of the next `n` bytes. -/
def checkedEnd (bytes : Bytes) (offset n : ℕ) (message : String) : Res ℕ :=
  Res.ofOption .invalidData message (if offset + n ≤ bytes.length then some (offset + n) else none)

/-- `Cursor::u8`, with the offset after it. -/
def sliceU8 (bytes : Bytes) (offset : ℕ) : Res (UInt8 × ℕ) := do
  let value ← Res.ofOption .invalidData "mvcc: short record" bytes[offset]?
  return (value, offset + 1)

/-- `Cursor::u64`, with the offset after it. -/
def sliceU64 (bytes : Bytes) (offset : ℕ) : Res (U64 × ℕ) := do
  let stop ← checkedEnd bytes offset 8 "mvcc: short u64"
  let slice ← sliceOf bytes offset stop
  if slice.length = 8 then return (U64.ofLe slice, stop) else .error (.panic (.expect "fixed slice"))

/-- `Cursor::string`, with the offset after it. -/
def sliceString (bytes : Bytes) (offset : ℕ) : Res (String × ℕ) := do
  let stop ← checkedEnd bytes offset 4 "mvcc: short string length"
  let slice ← sliceOf bytes offset stop
  if slice.length ≠ 4 then .error (.panic (.expect "fixed slice"))
  else
    let stop' ← checkedEnd bytes stop (ofLe slice) "mvcc: string exceeds record"
    let slice ← sliceOf bytes stop stop'
    let value ← Res.ofOption .invalidData "mvcc: string is not UTF-8" (ofUtf8 slice)
    return (value, stop')

namespace TxnRecord

/-- The fields of a record, by their offsets. -/
def sliceFields (tag : UInt8) (txn : U64) (bytes : Bytes) (offset : ℕ) : Res (TxnRecord × ℕ) :=
  if tag = TAG_BEGIN then do
    let (snapshot, offset) ← sliceU64 bytes offset
    return (begin txn snapshot, offset)
  else if tag = TAG_SET then do
    let (key, offset) ← sliceString bytes offset
    let (value, offset) ← sliceString bytes offset
    return (set txn key value, offset)
  else if tag = TAG_DELETE then do
    let (key, offset) ← sliceString bytes offset
    return (delete txn key, offset)
  else if tag = TAG_COMMIT then do
    let (commitTs, offset) ← sliceU64 bytes offset
    return (commit txn commitTs, offset)
  else if tag = TAG_ABORT then return (abort txn, offset)
  else invalid "mvcc: unknown record tag"

/-- `TxnRecord::decode`, with every slice that it takes. -/
def decodeSliced (bytes : Bytes) : Res TxnRecord := do
  let (tag, offset) ← sliceU8 bytes 0
  let (txn, offset) ← sliceU64 bytes offset
  let (record, offset) ← sliceFields tag txn bytes offset
  if offset ≠ bytes.length then invalid "mvcc: trailing record bytes" else return record

end TxnRecord

/-- Reading at an offset gives what the cursor at the offset gives. -/
structure Tracks {α : Type} (bytes : Bytes) (x : Res (α × ℕ)) (y : Res (α × Cursor)) : Prop where
  eq : x = y.map fun p => (p.1, p.2.offset)
  bytes : ∀ {a c}, y = .ok (a, c) → c.bytes = bytes

section Returns

theorem returns_cursorU8 (c : Cursor) : Res.Returns (cursorU8 c) := by
  unfold cursorU8
  split
  · exact Res.returns_ok _
  · exact Res.returns_fail _ _

theorem returns_cursorU64 (c : Cursor) : Res.Returns (cursorU64 c) :=
  (Res.returns_ofOption _ _ _).bind fun _ => Res.returns_ok _

theorem returns_cursorString (c : Cursor) : Res.Returns (cursorString c) := by
  refine (Res.returns_ofOption _ _ _).bind fun _ => (Res.returns_ofOption _ _ _).bind fun _ => ?_
  exact (Res.returns_ofOption _ _ _).bind fun _ => Res.returns_ok _

end Returns

section Tracks
variable {α β : Type} {bytes : Bytes} {x : Res (α × ℕ)} {y : Res (α × Cursor)}

theorem Tracks.ok (a : α) {c : Cursor} (h : c.bytes = bytes) : Tracks bytes (.ok (a, c.offset)) (.ok (a, c)) := by
  refine ⟨rfl, fun heq => ?_⟩
  cases heq
  exact h

theorem Tracks.error (e : Fault) : Tracks bytes (.error e : Res (α × ℕ)) (.error e) := ⟨rfl, fun heq => (nomatch heq)⟩

theorem Tracks.bind {f : α × ℕ → Res (β × ℕ)} {g : α × Cursor → Res (β × Cursor)} (h : Tracks bytes x y)
    (hf : ∀ a c, c.bytes = bytes → Tracks bytes (f (a, c.offset)) (g (a, c))) : Tracks bytes (x >>= f) (y >>= g) := by
  rw [h.eq]
  cases y with
  | error e => exact .error e
  | ok p => exact hf p.1 p.2 (h.bytes rfl)

theorem Tracks.finish {f : α × ℕ → Res β} {g : α × Cursor → Res β} (h : Tracks bytes x y)
    (hf : ∀ a c, c.bytes = bytes → f (a, c.offset) = g (a, c)) : x >>= f = y >>= g := by
  rw [h.eq]
  cases y with
  | error e => rfl
  | ok p => exact hf p.1 p.2 (h.bytes rfl)

theorem tracks_u8 (c : Cursor) : Tracks c.bytes (sliceU8 c.bytes c.offset) (cursorU8 c) := by
  unfold sliceU8 cursorU8 Cursor.take
  by_cases h : c.offset + 1 ≤ c.bytes.length
  · rw [dif_pos h, List.getElem?_eq_getElem h, Res.ofOption_some, Res.ok_bind, List.drop_eq_getElem_cons h]
    exact .ok (c := ⟨c.bytes, c.offset + 1, h⟩) _ rfl
  · rw [dif_neg h, List.getElem?_eq_none (by omega)]
    exact .error _

/-- The slice after a check is in range. -/
theorem sliceOf_checked (c : Cursor) {n : ℕ} (h : c.offset + n ≤ c.bytes.length) :
    sliceOf c.bytes c.offset (c.offset + n) = .ok ((c.bytes.drop c.offset).take n) := by
  rw [sliceOf, if_pos ⟨Nat.le_add_right _ _, h⟩, Nat.add_sub_cancel_left]

theorem tracks_u64 (c : Cursor) : Tracks c.bytes (sliceU64 c.bytes c.offset) (cursorU64 c) := by
  unfold sliceU64 cursorU64 checkedEnd Cursor.take
  by_cases h : c.offset + 8 ≤ c.bytes.length
  · have hlen : ((c.bytes.drop c.offset).take 8).length = 8 := by
      rw [List.length_take, List.length_drop]
      omega
    rw [if_pos h, dif_pos h, Res.ofOption_some, Res.ok_bind, sliceOf_checked c h, Res.ok_bind, if_pos hlen]
    exact .ok (c := ⟨c.bytes, c.offset + 8, h⟩) _ rfl
  · rw [if_neg h, dif_neg h]
    exact .error _

theorem tracks_string (c : Cursor) : Tracks c.bytes (sliceString c.bytes c.offset) (cursorString c) := by
  unfold sliceString cursorString checkedEnd
  rw [Cursor.take]
  by_cases h : c.offset + 4 ≤ c.bytes.length
  · have hlen : ((c.bytes.drop c.offset).take 4).length = 4 := by
      rw [List.length_take, List.length_drop]
      omega
    rw [if_pos h, dif_pos h, Res.ofOption_some, Res.ok_bind, sliceOf_checked c h, Res.ok_bind,
      if_neg (not_not.2 hlen), Res.ofOption_some, Res.ok_bind]
    dsimp only
    rw [Cursor.take]
    by_cases h' : c.offset + 4 + ofLe ((c.bytes.drop c.offset).take 4) ≤ c.bytes.length
    · rw [if_pos h', dif_pos h', Res.ofOption_some, Res.ok_bind, Res.ofOption_some, Res.ok_bind]
      rw [sliceOf_checked ⟨c.bytes, c.offset + 4, h⟩ h', Res.ok_bind]
      cases hutf8 : ofUtf8 ((c.bytes.drop (c.offset + 4)).take (ofLe ((c.bytes.drop c.offset).take 4))) with
      | none => exact .error _
      | some value => exact .ok (c := ⟨c.bytes, _, h'⟩) _ rfl
    · rw [if_neg h', dif_neg h']
      exact .error _
  · rw [if_neg h, dif_neg h]
    exact .error _

end Tracks

namespace TxnRecord

theorem tracks_fields (tag : UInt8) (txn : U64) (c : Cursor) :
    Tracks c.bytes (sliceFields tag txn c.bytes c.offset) (decodeFields tag txn c) := by
  unfold sliceFields decodeFields
  split_ifs
  · exact (tracks_u64 c).bind fun snapshot c₁ hc => .ok _ hc
  · refine (tracks_string c).bind fun key c₁ hc => ?_
    dsimp only
    rw [← hc]
    exact (tracks_string c₁).bind fun value c₂ hc' => .ok _ hc'
  · exact (tracks_string c).bind fun key c₁ hc => .ok _ hc
  · exact (tracks_u64 c).bind fun commitTs c₁ hc => .ok _ hc
  · exact .ok _ rfl
  · exact .error _

/-- **Every slice is in range.** -/
theorem decodeSliced_eq (bytes : Bytes) : decodeSliced bytes = decode bytes := by
  refine (tracks_u8 (.start bytes)).finish fun tag c hc => ?_
  obtain rfl : c.bytes = bytes := hc
  refine (tracks_u64 c).finish fun txn c₁ hc₁ => ?_
  dsimp only
  rw [← hc₁]
  refine (tracks_fields tag txn c₁).finish fun record c₂ hc₂ => ?_
  dsimp only
  rw [← hc₂, Cursor.atEnd]
  by_cases h : c₂.offset = c₂.bytes.length
  · rw [if_neg (not_not.2 h), if_pos (beq_iff_eq.2 h)]
  · rw [if_pos h, if_neg (mt beq_iff_eq.1 h)]

theorem returns_decodeFields (tag : UInt8) (txn : U64) (c : Cursor) : Res.Returns (decodeFields tag txn c) := by
  unfold decodeFields
  split_ifs
  · exact (returns_cursorU64 c).bind fun _ => Res.returns_ok _
  · exact (returns_cursorString c).bind fun _ => (returns_cursorString _).bind fun _ => Res.returns_ok _
  · exact (returns_cursorString c).bind fun _ => Res.returns_ok _
  · exact (returns_cursorU64 c).bind fun _ => Res.returns_ok _
  · exact Res.returns_ok _
  · exact Res.returns_fail _ _

theorem returns_decode (bytes : Bytes) : Res.Returns (decode bytes) := by
  refine (returns_cursorU8 _).bind fun _ => (returns_cursorU64 _).bind fun _ => ?_
  refine (returns_decodeFields _ _ _).bind fun p => ?_
  dsimp only
  split_ifs
  · exact Res.returns_ok _
  · exact Res.returns_fail _ _

/-- **The codec is a bijection onto what it accepts**, and no slice is out of range. -/
theorem codec_bijection : (∀ record b, encode record = .ok b → decode b = .ok record) ∧
    (∀ b record, decode b = .ok record → encode record = .ok b) ∧
    ∀ b, decodeSliced b = decode b ∧ Res.Returns (decodeSliced b) := by
  refine ⟨fun record b => decode_encode, fun b record => encode_of_decode, fun b => ⟨decodeSliced_eq b, ?_⟩⟩
  rw [decodeSliced_eq]
  exact returns_decode b

theorem codec_bijection_set :
    encode (set 1 "k" "é") = .ok (TAG_SET :: (U64.toLe 1 ++ (le 4 1 ++ utf8 "k") ++ (le 4 2 ++ utf8 "é"))) ∧
    decode (TAG_SET :: (U64.toLe 1 ++ (le 4 1 ++ utf8 "k") ++ (le 4 2 ++ utf8 "é"))) = .ok (set 1 "k" "é") := by
  have hencode : encode (set 1 "k" "é") =
      .ok (TAG_SET :: (U64.toLe 1 ++ (le 4 1 ++ utf8 "k") ++ (le 4 2 ++ utf8 "é"))) := by decide +kernel
  exact ⟨hencode, codec_bijection.1 _ _ hencode⟩

end TxnRecord

end Mvcc

end NutDb
