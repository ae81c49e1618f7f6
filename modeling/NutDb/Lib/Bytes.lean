/-
  Byte strings: little-endian integers, UTF-8 text, and a bounds-checked
  cursor over a byte string.

  * `le w n` are the `w` little-endian bytes of `n` (reduced modulo `256 ^ w`),
    `ofLe` reads them back;
  * `utf8` and `ofUtf8` convert between strings and their UTF-8 bytes;
  * a `Cursor` is an offset into a byte string that never leaves it; `take`
    reads the next bytes or fails, and its two rules (`take_of_unread`,
    `unread_of_take`) are all that the codecs built on it need.
-/
import Mathlib

namespace Lib

/-- A byte string. -/
abbrev Bytes := List UInt8

/-- The 64-bit unsigned integers. -/
abbrev U64 := Fin (2 ^ 64)

instance (priority := high) neZeroU64 : NeZero (2 ^ 64 : ℕ) := ⟨by norm_num⟩

instance (priority := high) lawfulBEqU64 : LawfulBEq U64 := inferInstance

/-- Addition that fails on overflow. -/
def U64.checkedAdd (a : U64) (n : ℕ) : Option U64 :=
  if h : a.val + n < 2 ^ 64 then some ⟨a.val + n, h⟩ else none

theorem U64.checkedAdd_eq_some {a b : U64} {n : ℕ} :
    U64.checkedAdd a n = some b ↔ b.val = a.val + n := by
  unfold U64.checkedAdd
  split_ifs with h
  · rw [Option.some.injEq]
    exact ⟨fun h' => by rw [← h'], fun h' => Fin.ext h'.symm⟩
  · simp only [false_iff]
    intro h'
    have := b.isLt
    omega

/-! ## Little-endian integers -/

/-- The `w` little-endian bytes of `n`. -/
def le : ℕ → ℕ → Bytes
  | 0, _ => []
  | w + 1, n => UInt8.ofNat (n % 256) :: le w (n / 256)

/-- The integer with the given little-endian bytes. -/
def ofLe : Bytes → ℕ
  | [] => 0
  | b :: bs => b.toNat + 256 * ofLe bs

@[simp] theorem length_le (w n : ℕ) : (le w n).length = w := by
  induction w generalizing n with
  | zero => rfl
  | succ w ih => simp [le, ih]

theorem ofLe_le (w n : ℕ) : ofLe (le w n) = n % 256 ^ w := by
  induction w generalizing n with
  | zero => simp [le, ofLe, Nat.mod_one]
  | succ w ih =>
    have hb : (UInt8.ofNat (n % 256)).toNat = n % 256 := by
      rw [UInt8.toNat_ofNat', Nat.mod_mod]
    rw [le, ofLe, ih, hb, Nat.pow_succ', Nat.mod_mul]

theorem ofLe_le_of_lt {w n : ℕ} (h : n < 256 ^ w) : ofLe (le w n) = n := by
  rw [ofLe_le, Nat.mod_eq_of_lt h]

theorem ofLe_lt (bs : Bytes) : ofLe bs < 256 ^ bs.length := by
  induction bs with
  | nil => simp [ofLe]
  | cons b bs ih =>
    have hb := b.toNat_lt
    simp only [ofLe, List.length_cons, pow_succ]
    omega

theorem le_ofLe (bs : Bytes) : le bs.length (ofLe bs) = bs := by
  induction bs with
  | nil => rfl
  | cons b bs ih =>
    have hb := b.toNat_lt
    have h1 : (b.toNat + 256 * ofLe bs) % 256 = b.toNat := by omega
    have h2 : (b.toNat + 256 * ofLe bs) / 256 = ofLe bs := by omega
    simp only [List.length_cons, ofLe, le, h1, h2, ih, UInt8.ofNat_toNat]

/-- The eight little-endian bytes of a 64-bit integer. -/
def U64.toLe (a : U64) : Bytes := le 8 a.val

/-- The 64-bit integer with the given (eight) little-endian bytes. -/
def U64.ofLe (bs : Bytes) : U64 := ⟨Lib.ofLe bs % 2 ^ 64, Nat.mod_lt _ (by norm_num)⟩

@[simp] theorem U64.length_toLe (a : U64) : a.toLe.length = 8 := length_le 8 _

@[simp] theorem U64.ofLe_toLe (a : U64) : U64.ofLe a.toLe = a := by
  have h : (256 : ℕ) ^ 8 = 2 ^ 64 := by norm_num
  apply Fin.ext
  simp only [U64.ofLe, U64.toLe]
  rw [ofLe_le, h, Nat.mod_mod, Nat.mod_eq_of_lt a.isLt]

theorem U64.toLe_ofLe {bs : Bytes} (h : bs.length = 8) : (U64.ofLe bs).toLe = bs := by
  have hlt := ofLe_lt bs
  rw [h] at hlt
  have h64 : (256 : ℕ) ^ 8 = 2 ^ 64 := by norm_num
  simp only [U64.ofLe, U64.toLe]
  rw [Nat.mod_eq_of_lt (by omega), ← h, le_ofLe]

/-! ## UTF-8 -/

/-- The UTF-8 bytes of a string. -/
def utf8 (s : String) : Bytes := s.toByteArray.data.toList

/-- The string with the given UTF-8 bytes, if they are valid UTF-8. -/
def ofUtf8 (b : Bytes) : Option String := String.fromUTF8? ⟨b.toArray⟩

@[simp] theorem ofUtf8_utf8 (s : String) : ofUtf8 (utf8 s) = some s := by
  have h : (⟨(utf8 s).toArray⟩ : ByteArray) = s.toByteArray := by simp [utf8]
  rw [ofUtf8, h, String.fromUTF8?, dif_pos s.isValidUTF8]
  rfl

theorem utf8_of_ofUtf8 {b : Bytes} {s : String} (h : ofUtf8 b = some s) : utf8 s = b := by
  simp only [ofUtf8, String.fromUTF8?] at h
  split_ifs at h with hv
  cases h
  simp [utf8, String.fromUTF8]

theorem utf8_injective : Function.Injective utf8 := by
  intro s t h
  have h' := ofUtf8_utf8 s
  rw [h, ofUtf8_utf8] at h'
  exact (Option.some.inj h').symm

/-! ## Cursors -/

/-- An offset into a byte string. -/
structure Cursor where
  bytes : Bytes
  offset : ℕ
  inRange : offset ≤ bytes.length

namespace Cursor

/-- The cursor at the start of `b`. -/
def start (b : Bytes) : Cursor := ⟨b, 0, Nat.zero_le _⟩

/-- The bytes not yet read. -/
def unread (c : Cursor) : Bytes := c.bytes.drop c.offset

/-- Read the next `n` bytes, if there are that many. -/
def take (c : Cursor) (n : ℕ) : Option (Bytes × Cursor) :=
  if h : c.offset + n ≤ c.bytes.length then
    some ((c.bytes.drop c.offset).take n, ⟨c.bytes, c.offset + n, h⟩)
  else none

/-- All bytes have been read. -/
def atEnd (c : Cursor) : Bool := c.offset == c.bytes.length

@[simp] theorem unread_start (b : Bytes) : (start b).unread = b := rfl

theorem atEnd_iff (c : Cursor) : c.atEnd = true ↔ c.unread = [] := by
  have := c.inRange
  simp only [atEnd, unread, beq_iff_eq, List.drop_eq_nil_iff]
  omega

theorem length_unread (c : Cursor) : c.unread.length = c.bytes.length - c.offset := by
  simp [unread]

theorem take_of_unread {c : Cursor} {xs rest : Bytes} (h : c.unread = xs ++ rest) :
    ∃ c', c.take xs.length = some (xs, c') ∧ c'.unread = rest := by
  have hlen := congrArg List.length h
  rw [length_unread, List.length_append] at hlen
  have hr := c.inRange
  have hle : c.offset + xs.length ≤ c.bytes.length := by omega
  refine ⟨⟨c.bytes, c.offset + xs.length, hle⟩, ?_, ?_⟩
  · simp only [take, dif_pos hle]
    rw [show c.bytes.drop c.offset = xs ++ rest from h, List.take_left']
    rfl
  · have : c.bytes.drop (c.offset + xs.length) = (c.bytes.drop c.offset).drop xs.length := by
      rw [List.drop_drop]
    simp only [unread] at h ⊢
    rw [this, h, List.drop_left']
    rfl

theorem unread_of_take {c c' : Cursor} {n : ℕ} {xs : Bytes} (h : c.take n = some (xs, c')) :
    c.unread = xs ++ c'.unread ∧ xs.length = n := by
  unfold take at h
  split_ifs at h with hle
  cases h
  refine ⟨?_, ?_⟩
  · simp only [unread]
    rw [← List.drop_drop, List.take_append_drop]
  · simp only [List.length_take, List.length_drop]
    omega

end Cursor

end Lib
