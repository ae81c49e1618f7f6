/-
  Regions of a byte string: reading a slice, overwriting a slice, and the frame
  rules that say which slices an overwrite leaves alone.
-/
import NutDb.Lib.Outcome

namespace Lib

/-- The `n` bytes from `o` on. -/
def slice (b : Bytes) (o n : ℕ) : Bytes := (b.drop o).take n

/-- Overwrite the bytes from `o` on with `x`. -/
def blit (b : Bytes) (o : ℕ) (x : Bytes) : Bytes := b.take o ++ x ++ b.drop (o + x.length)

/-- The bytes `x` stand at offset `o`. -/
def At (b : Bytes) (o : ℕ) (x : Bytes) : Prop := slice b o x.length = x

section Region
variable {b x y : Bytes} {o o' n : ℕ}

theorem length_slice (h : o + n ≤ b.length) : (slice b o n).length = n := by
  simp [slice]; omega

theorem length_blit (h : o + x.length ≤ b.length) : (blit b o x).length = b.length := by
  simp [blit]; omega

theorem slice_blit_self (h : o + x.length ≤ b.length) : slice (blit b o x) o x.length = x := by
  have ho : (b.take o).length = o := by simp; omega
  rw [slice, blit, List.append_assoc, List.drop_left' ho, List.take_left' rfl]

theorem slice_blit_before (h : o + x.length ≤ b.length) (hd : o' + n ≤ o) :
    slice (blit b o x) o' n = slice b o' n := by
  have ho : (b.take o).length = o := by simp; omega
  rw [slice, slice, blit, List.append_assoc, List.drop_append_of_le_length (by omega),
    List.take_append_of_le_length (by simp; omega), List.drop_take, List.take_take]
  congr 1
  omega

theorem slice_blit_after (h : o + x.length ≤ b.length) (hd : o + x.length ≤ o') :
    slice (blit b o x) o' n = slice b o' n := by
  have ho : (b.take o ++ x).length = o + x.length := by simp; omega
  obtain ⟨d, rfl⟩ : ∃ d, o' = (o + x.length) + d := ⟨o' - (o + x.length), by omega⟩
  rw [slice, slice, blit, ← List.drop_drop, List.drop_left' ho, List.drop_drop]

/-- **Frame rule**: an overwrite leaves disjoint slices alone. -/
theorem slice_blit_of_disjoint (h : o + x.length ≤ b.length)
    (hd : o' + n ≤ o ∨ o + x.length ≤ o') : slice (blit b o x) o' n = slice b o' n := by
  rcases hd with hd | hd
  · exact slice_blit_before h hd
  · exact slice_blit_after h hd

theorem At.blit_self (h : o + x.length ≤ b.length) : At (blit b o x) o x := slice_blit_self h

theorem At.blit_of_disjoint (ha : At b o' y) (h : o + x.length ≤ b.length)
    (hd : o' + y.length ≤ o ∨ o + x.length ≤ o') : At (blit b o x) o' y :=
  (slice_blit_of_disjoint h hd).trans ha

/-- Bytes that stand somewhere, taken apart. -/
theorem At.append_iff : At b o (x ++ y) ↔ At b o x ∧ At b (o + x.length) y := by
  have hsplit : slice b o (x ++ y).length = slice b o x.length ++ slice b (o + x.length) y.length := by
    rw [slice, slice, slice, List.length_append, List.take_add, List.drop_drop]
  unfold At
  rw [hsplit]
  constructor
  · intro h
    have hlen := congrArg List.length h
    have h1 : (slice b o x.length).length ≤ x.length := by simp [slice]
    have h2 : (slice b (o + x.length) y.length).length ≤ y.length := by simp [slice]
    simp only [List.length_append] at hlen
    exact List.append_inj h (by omega)
  · rintro ⟨h1, h2⟩
    rw [h1, h2]

theorem At.length_le (ha : At b o x) (hx : x ≠ []) : o + x.length ≤ b.length := by
  have h := congrArg List.length (show slice b o x.length = x from ha)
  have h0 := List.length_pos_iff.2 hx
  simp only [slice, List.length_take, List.length_drop] at h
  omega

/-- Bytes stay where they are when the string is extended. -/
theorem At.append_right (ha : At b o x) (hx : x ≠ []) (z : Bytes) : At (b ++ z) o x := by
  have h := ha.length_le hx
  unfold At slice at *
  rw [List.drop_append_of_le_length (by omega), List.take_append_of_le_length (by simp; omega), ha]

/-- Bytes stay where they are when the string is cut behind them. -/
theorem At.take (ha : At b o x) (h : o + x.length ≤ n) : At (b.take n) o x := by
  unfold At slice at *
  rw [List.drop_take, List.take_take, Nat.min_eq_left (by omega), ha]

/-- A string is what stands in its consecutive chunks. -/
theorem eq_flatMap_of_at {α : Type} (f : α → Bytes) {w : ℕ} (hf : ∀ a, (f a).length = w) :
    ∀ {b : Bytes} {l : List α}, b.length = l.length * w →
      (∀ i a, l[i]? = some a → At b (i * w) (f a)) → b = l.flatMap f
  | b, [], hl, _ => by simpa using hl
  | b, a :: l, hl, ha => by
    have h0 : At b 0 (f a) := by simpa using ha 0 a rfl
    rw [List.length_cons, Nat.add_mul, Nat.one_mul] at hl
    have htake : b.take w = f a := by simpa [At, slice, hf] using h0
    have hrec := eq_flatMap_of_at f hf (b := b.drop w) (l := l) (by simp; omega) fun i a' hi => by
      have := ha (i + 1) a' hi
      unfold At slice at this ⊢
      rw [List.drop_drop, show w + i * w = (i + 1) * w by rw [Nat.add_mul]; omega]
      exact this
    rw [List.flatMap_cons, ← hrec, ← htake, List.take_append_drop]

theorem slice_zero_length (b : Bytes) : slice b 0 b.length = b := by simp [slice]

/-- Overwriting twice at the same place. -/
theorem blit_blit (h : o + x.length ≤ b.length) (hxy : x.length = y.length) :
    blit (blit b o x) o y = blit b o y := by
  have ho : (b.take o).length = o := by simp; omega
  have ho' : (b.take o ++ x).length = o + y.length := by simp; omega
  rw [blit, blit, List.drop_left' ho', List.append_assoc (b.take o), List.take_left' ho, blit, hxy]

/-- Overwriting with what is there. -/
theorem blit_of_at (ha : At b o x) : blit b o x = b := by
  unfold At slice at ha
  conv_rhs => rw [← List.take_append_drop o b, ← List.take_append_drop x.length (b.drop o), ha]
  rw [blit, List.append_assoc, List.drop_drop]

/-- A byte after overwriting. -/
theorem getElem?_blit (h : o + x.length ≤ b.length) (j : ℕ) :
    (blit b o x)[j]? = if o ≤ j ∧ j < o + x.length then x[j - o]? else b[j]? := by
  have ho : (b.take o).length = o := by simp; omega
  rw [blit, List.append_assoc]
  rcases Nat.lt_or_ge j o with hj | hj
  · rw [List.getElem?_append_left (by omega), if_neg (by omega), List.getElem?_take_of_lt hj]
  rw [List.getElem?_append_right (by omega), ho]
  rcases Nat.lt_or_ge (j - o) x.length with hx | hx
  · rw [List.getElem?_append_left hx, if_pos (by omega)]
  · rw [List.getElem?_append_right hx, if_neg (by omega), List.getElem?_drop,
      show o + x.length + (j - o - x.length) = j by omega]

/-- A slice depends on the bytes in it. -/
theorem slice_congr {b' : Bytes} (h : ∀ j, o ≤ j → j < o + n → b'[j]? = b[j]?) :
    slice b' o n = slice b o n := by
  refine List.ext_getElem? fun j => ?_
  rw [slice, slice, List.getElem?_take, List.getElem?_take]
  split_ifs with hj
  · rw [List.getElem?_drop, List.getElem?_drop, h _ (by omega) (by omega)]
  · rfl

end Region

end Lib
