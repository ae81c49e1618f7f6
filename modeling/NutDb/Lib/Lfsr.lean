/-
  Linear feedback shift registers, and the bursts that they detect.

  A register of `w` bits takes one bit at a time into its low end, and feeds a
  polynomial back when a bit leaves it there.  Shifting is linear and, when the
  polynomial has its highest bit, injective.  So two inputs of the same length
  that differ within a window of at most `w` bits leave different registers
  (`feed_burst`).
-/
import Mathlib.Logic.Function.Iterate

namespace Lib

namespace Lfsr
variable {w : ℕ} {poly s t : BitVec w}

/-- One shift: the bit that leaves feeds the polynomial back. -/
def shift (poly s : BitVec w) : BitVec w := (s >>> 1) ^^^ (if s.getLsbD 0 then poly else 0#w)

/-- A bit at the low end. -/
def low (w : ℕ) (b : Bool) : BitVec w := BitVec.setWidth w (BitVec.ofBool b)

/-- The register after the bits. -/
def feed (poly : BitVec w) (s : BitVec w) (bits : List Bool) : BitVec w :=
  bits.foldl (fun s b => shift poly (s ^^^ low w b)) s

theorem feed_append (s : BitVec w) (l l' : List Bool) : feed poly s (l ++ l') = feed poly (feed poly s l) l' :=
  List.foldl_append

/-! ## Shifting -/

theorem xor_eq_zero_iff : s ^^^ t = 0#w ↔ s = t := by
  constructor
  · intro h
    have hs : s ^^^ t ^^^ t = s := by rw [BitVec.xor_assoc, BitVec.xor_self, BitVec.xor_zero]
    rw [← hs, h, BitVec.zero_xor]
  · rintro rfl
    exact BitVec.xor_self

theorem shift_xor (poly s t : BitVec w) : shift poly (s ^^^ t) = shift poly s ^^^ shift poly t := by
  unfold shift
  rw [BitVec.getLsbD_xor, BitVec.ushiftRight_xor_distrib]
  refine BitVec.eq_of_getLsbD_eq fun i _ => ?_
  cases s.getLsbD 0 <;> cases t.getLsbD 0 <;>
    simp only [Bool.false_xor, Bool.true_xor, Bool.not_true, Bool.not_false, Bool.false_eq_true, if_true,
      if_false, BitVec.getLsbD_xor, BitVec.getLsbD_zero] <;>
    cases (s >>> 1).getLsbD i <;> cases (t >>> 1).getLsbD i <;> cases poly.getLsbD i <;> rfl

/-- The bit that leaves the register is the highest bit of the next one. -/
theorem msb_shift (hpoly : poly.msb = true) (s : BitVec w) : (shift poly s).msb = s.getLsbD 0 := by
  have hw : 0 < w := by
    rcases Nat.eq_zero_or_pos w with rfl | hw
    · rw [BitVec.of_length_zero (x := poly)] at hpoly
      cases hpoly
    · exact hw
  have hhigh : (s >>> 1).msb = false := by
    rw [BitVec.msb_ushiftRight]
    simp
  unfold shift
  rw [BitVec.msb_xor, hhigh, Bool.false_xor]
  cases s.getLsbD 0 with
  | true => rw [if_pos rfl, hpoly]
  | false =>
    rw [if_neg (by simp)]
    simp

theorem eq_zero_of_shift (hpoly : poly.msb = true) (h : shift poly s = 0#w) : s = 0#w := by
  have hlow : s.getLsbD 0 = false := by
    rw [← msb_shift hpoly s, h]
    simp
  have hrest : s >>> 1 = 0#w := by
    rw [shift, hlow] at h
    simpa using h
  refine BitVec.eq_of_getLsbD_eq fun i _ => ?_
  cases i with
  | zero => rw [hlow, BitVec.getLsbD_zero]
  | succ i =>
    have hi := congrArg (fun x => x.getLsbD i) hrest
    rw [BitVec.getLsbD_zero]
    rwa [BitVec.getLsbD_ushiftRight, Nat.add_comm, BitVec.getLsbD_zero] at hi

theorem shift_injective (hpoly : poly.msb = true) : Function.Injective (shift poly) := by
  intro s t h
  rw [← xor_eq_zero_iff]
  refine eq_zero_of_shift hpoly ?_
  rw [shift_xor, xor_eq_zero_iff]
  exact h

theorem feed_injective (hpoly : poly.msb = true) (bits : List Bool) :
    Function.Injective fun s => feed poly s bits := by
  induction bits with
  | nil => exact Function.injective_id
  | cons b bits ih =>
    intro s t h
    have hshift := shift_injective hpoly (ih h)
    rw [← xor_eq_zero_iff] at hshift ⊢
    rwa [BitVec.xor_assoc, BitVec.xor_comm (low w b), BitVec.xor_assoc t, BitVec.xor_self, BitVec.xor_zero]
      at hshift

/-! ## Words -/

/-- The bits as a word, the first one at the low end. -/
def word (w : ℕ) : List Bool → BitVec w
  | [] => 0#w
  | b :: bits => low w b ^^^ (word w bits <<< 1)

theorem getLsbD_low (b : Bool) (i : ℕ) : (low w b).getLsbD i = (decide (i < w) && decide (i = 0) && b) := by
  rw [low, BitVec.getLsbD_setWidth]
  cases i with
  | zero => cases b <;> simp
  | succ i => simp

theorem getLsbD_word (bits : List Bool) (i : ℕ) :
    (word w bits).getLsbD i = (decide (i < w) && bits.getD i false) := by
  induction bits generalizing i with
  | nil => simp [word]
  | cons b bits ih =>
    rw [word, BitVec.getLsbD_xor, getLsbD_low, BitVec.getLsbD_shiftLeft, ih]
    cases i with
    | zero => simp
    | succ i =>
      by_cases hi : i + 1 < w
      · have hi' : i < w := by omega
        simp [hi, hi']
      · simp [hi]

theorem word_injective {l l' : List Bool} (hlen : l.length = l'.length) (hw : l.length ≤ w)
    (h : word w l = word w l') : l = l' := by
  refine List.ext_getElem hlen fun i hi hi' => ?_
  have hbit := congrArg (fun x => x.getLsbD i) h
  simp only [getLsbD_word] at hbit
  have hiw : i < w := Nat.lt_of_lt_of_le hi hw
  simpa [hiw, hi, hi'] using hbit

/-- A word with room at its high end passes through one shift. -/
theorem shift_shiftLeft (h : s.msb = false) : shift poly (s <<< 1) = s := by
  rw [shift]
  refine BitVec.eq_of_getLsbD_eq fun i hi => ?_
  have hlow : (s <<< 1).getLsbD 0 = false := by simp
  rw [hlow, BitVec.getLsbD_xor, BitVec.getLsbD_ushiftRight, BitVec.getLsbD_shiftLeft]
  by_cases hi' : 1 + i < w
  · simp [hi']
  · have hlast : s.getLsbD i = false := by
      rw [BitVec.msb_eq_getLsbD_last] at h
      obtain rfl : i = w - 1 := by omega
      exact h
    simp [hlast]

/-- **Feeding up to `w` bits** is shifting the register with the word of the bits in it. -/
theorem feed_eq_iterate {bits : List Bool} (hw : bits.length ≤ w) (s : BitVec w) :
    feed poly s bits = (shift poly)^[bits.length] (s ^^^ word w bits) := by
  induction bits generalizing s with
  | nil => simp [feed, word]
  | cons b bits ih =>
    have hroom : (word w bits).msb = false := by
      rw [BitVec.msb_eq_getLsbD_last, getLsbD_word]
      rw [List.length_cons] at hw
      rw [List.getD_eq_getElem?_getD, List.getElem?_eq_none (by omega), Option.getD_none, Bool.and_false]
    have hstep : shift poly (s ^^^ (low w b ^^^ (word w bits <<< 1))) =
        shift poly (s ^^^ low w b) ^^^ word w bits := by
      rw [← BitVec.xor_assoc, shift_xor, shift_shiftLeft hroom]
    have hrest := ih (Nat.le_of_succ_le hw) (shift poly (s ^^^ low w b))
    rw [List.length_cons, Function.iterate_succ_apply, word, hstep, ← hrest]
    rfl

/-! ## Bursts -/

/-- Different windows of at most `w` bits leave different registers. -/
theorem feed_ne (hpoly : poly.msb = true) {l l' : List Bool} (hlen : l.length = l'.length)
    (hw : l.length ≤ w) (hne : l ≠ l') (s : BitVec w) : feed poly s l ≠ feed poly s l' := by
  intro h
  rw [feed_eq_iterate hw, feed_eq_iterate (hlen ▸ hw), ← hlen] at h
  have hword := (shift_injective hpoly).iterate l.length h
  refine hne (word_injective hlen hw ?_)
  rw [← xor_eq_zero_iff] at hword ⊢
  rwa [BitVec.xor_comm s, BitVec.xor_assoc, ← BitVec.xor_assoc s, BitVec.xor_self, BitVec.zero_xor] at hword

/-- **Bursts are detected**: inputs of the same length that differ, but only in the `w` bits from
    `start` on, leave different registers. -/
theorem feed_burst (hpoly : poly.msb = true) {l l' : List Bool} (hlen : l.length = l'.length)
    (hne : l ≠ l') {start : ℕ} (hburst : ∀ i : ℕ, l[i]? ≠ l'[i]? → start ≤ i ∧ i < start + w) (s : BitVec w) :
    feed poly s l ≠ feed poly s l' := by
  have hbefore : l.take start = l'.take start := by
    refine List.ext_getElem? fun i => ?_
    by_cases hi : i < start
    · rw [List.getElem?_take_of_lt hi, List.getElem?_take_of_lt hi]
      by_contra h
      exact absurd (hburst i h).1 (by omega)
    · rw [List.getElem?_eq_none (by simp; omega), List.getElem?_eq_none (by simp; omega)]
  have hafter : l.drop (start + w) = l'.drop (start + w) := by
    refine List.ext_getElem? fun i => ?_
    rw [List.getElem?_drop, List.getElem?_drop]
    by_contra h
    exact absurd (hburst _ h).2 (by omega)
  have hsplit : ∀ m : List Bool, m = m.take start ++ ((m.drop start).take w ++ m.drop (start + w)) := by
    intro m
    rw [← List.drop_drop, List.take_append_drop, List.take_append_drop]
  have hwindow : (l.drop start).take w ≠ (l'.drop start).take w := by
    intro h
    refine hne ?_
    rw [hsplit l, hsplit l', hbefore, h, hafter]
  rw [hsplit l, hsplit l', ← hbefore, ← hafter, feed_append, feed_append, feed_append, feed_append]
  intro h
  refine feed_ne hpoly ?_ ?_ hwindow _ (feed_injective hpoly _ h)
  · simp [hlen]
  · exact List.length_take_le _ _

end Lfsr

end Lib
