/-
  What the checksum detects.

  `crc32` is a feedback shift register of 32 bits that takes the bits of every
  byte from the low end (`crc32_eq_feed`).  So it tells data apart that differ
  within 32 consecutive bits, in this order, wherever they stand (`crc32_burst`).
-/
import NutDb.Crc
import NutDb.Lib.Lfsr

namespace NutDb

open Lib

/-- The bits of a byte, the lowest one first. -/
def bitsOf (byte : UInt8) : List Bool := (List.range 8).map fun i => byte.toBitVec.getLsbD i

/-- The bits of data, in the order in which the checksum takes them. -/
def bits (data : Bytes) : List Bool := data.flatMap bitsOf

/-- Data of the same length that differ only in 32 consecutive bits. -/
structure Burst (data data' : Bytes) : Prop where
  length : data'.length = data.length
  ne : data' ≠ data
  window : ∃ start, ∀ i : ℕ, (bits data)[i]? ≠ (bits data')[i]? → start ≤ i ∧ i < start + 32

section Bits
variable {data data' : Bytes}

@[simp] theorem length_bitsOf (byte : UInt8) : (bitsOf byte).length = 8 := by simp [bitsOf]

@[simp] theorem bits_cons (byte : UInt8) (data : Bytes) : bits (byte :: data) = bitsOf byte ++ bits data := rfl

@[simp] theorem bits_append (data data' : Bytes) : bits (data ++ data') = bits data ++ bits data' := by
  simp [bits]

@[simp] theorem length_bits (data : Bytes) : (bits data).length = 8 * data.length := by
  induction data with
  | nil => rfl
  | cons byte data ih =>
    rw [bits_cons, List.length_append, length_bitsOf, ih, List.length_cons]
    omega

theorem bitsOf_injective : Function.Injective bitsOf := by
  intro a b h
  rw [← UInt8.toBitVec_inj]
  refine BitVec.eq_of_getLsbD_eq fun i hi => ?_
  have hget := congrArg (fun l => l[i]?) h
  simpa [bitsOf, hi] using hget

theorem bits_injective (hlen : data.length = data'.length) (h : bits data = bits data') : data = data' := by
  induction data generalizing data' with
  | nil => exact (List.length_eq_zero_iff.1 hlen.symm).symm
  | cons byte data ih =>
    cases data' with
    | nil => cases hlen
    | cons byte' data' =>
      obtain ⟨hbyte, hdata⟩ := List.append_inj h (by simp)
      rw [bitsOf_injective hbyte, ih (Nat.succ.inj hlen) hdata]

/-- The bits of a byte stand together. -/
theorem getElem?_bits (data : Bytes) (i : ℕ) {j : ℕ} (hj : j < 8) :
    (bits data)[8 * i + j]? = data[i]?.map fun byte => byte.toBitVec.getLsbD j := by
  induction data generalizing i with
  | nil => simp [bits]
  | cons byte data ih =>
    cases i with
    | zero =>
      rw [bits_cons, List.getElem?_append_left (by simp; omega)]
      simp [bitsOf, hj]
    | succ i =>
      rw [bits_cons, List.getElem?_append_right (by simp; omega), length_bitsOf,
        show 8 * (i + 1) + j - 8 = 8 * i + j by omega, ih, List.getElem?_cons_succ]

/-- Data that differ in one byte. -/
theorem Burst.of_byte {i : ℕ} (hlen : data'.length = data.length) (hne : data' ≠ data)
    (h : ∀ j ≠ i, data'[j]? = data[j]?) : Burst data data' := by
  refine ⟨hlen, hne, 8 * i, fun n hn => ?_⟩
  have hdiv : n / 8 = i := by
    by_contra hi
    have hmod : n % 8 < 8 := Nat.mod_lt _ (by norm_num)
    rw [← Nat.div_add_mod n 8, getElem?_bits _ _ hmod, getElem?_bits _ _ hmod, h _ hi] at hn
    exact hn rfl
  omega

end Bits

/-! ## The register -/

/-- The polynomial as a vector of bits. -/
def polynomial : BitVec 32 := POLYNOMIAL.toBitVec

theorem toBitVec_crcBit (crc : UInt32) : (crcBit crc).toBitVec = Lfsr.shift polynomial crc.toBitVec := by
  have hmask : (0 - (crc &&& 1)).toBitVec = if crc.toBitVec.getLsbD 0 then BitVec.allOnes 32 else 0#32 := by
    rw [UInt32.toBitVec_sub, UInt32.toBitVec_and, UInt32.toBitVec_one, BitVec.and_one_eq_setWidth_ofBool_getLsbD]
    cases crc.toBitVec.getLsbD 0 <;> decide
  rw [crcBit, UInt32.toBitVec_xor, UInt32.toBitVec_and, hmask, Lfsr.shift, UInt32.toBitVec_shiftRight]
  cases crc.toBitVec.getLsbD 0 with
  | true =>
    rw [if_pos rfl, if_pos rfl, BitVec.and_allOnes]
    rfl
  | false => simp

theorem word_bitsOf (byte : UInt8) : Lfsr.word 32 (bitsOf byte) = byte.toUInt32.toBitVec := by
  refine BitVec.eq_of_getLsbD_eq fun i hi => ?_
  rw [Lfsr.getLsbD_word, UInt8.toBitVec_toUInt32, BitVec.getLsbD_setWidth]
  by_cases h : i < 8
  · simp [bitsOf, h]
  · rw [BitVec.getLsbD_of_ge _ _ (by omega), List.getD_eq_getElem?_getD, List.getElem?_eq_none (by simp; omega)]
    simp

/-- A byte is eight bits. -/
theorem toBitVec_crcByte (crc : UInt32) (byte : UInt8) :
    (crcByte crc byte).toBitVec = Lfsr.feed polynomial crc.toBitVec (bitsOf byte) := by
  have hiterate : ∀ n (c : UInt32), (crcBit^[n] c).toBitVec = (Lfsr.shift polynomial)^[n] c.toBitVec := by
    intro n c
    induction n generalizing c with
    | zero => rfl
    | succ n ih => rw [Function.iterate_succ_apply, Function.iterate_succ_apply, ih, toBitVec_crcBit]
  rw [crcByte, hiterate, Lfsr.feed_eq_iterate (by simp), word_bitsOf, UInt32.toBitVec_xor, length_bitsOf]

/-- **The checksum is the register** after all bits, inverted. -/
theorem crc32_eq_feed (data : Bytes) :
    (crc32 data).toBitVec = ~~~ Lfsr.feed polynomial (BitVec.allOnes 32) (bits data) := by
  have hfold : ∀ crc : UInt32, (data.foldl crcByte crc).toBitVec = Lfsr.feed polynomial crc.toBitVec (bits data) := by
    induction data with
    | nil => exact fun crc => rfl
    | cons byte data ih =>
      intro crc
      rw [List.foldl_cons, ih, toBitVec_crcByte, bits_cons, Lfsr.feed_append]
  rw [crc32, UInt32.toBitVec_not, hfold]
  rfl

theorem crcField_injective {data data' : Bytes} (h : crcField data = crcField data') :
    crc32 data = crc32 data' := by
  have hnat : (crc32 data).toNat = (crc32 data').toNat := by
    rw [← ofLe_crcField, h, ofLe_crcField]
  exact UInt32.toNat_inj.1 hnat

/-- The register tells bursts apart. -/
theorem Burst.register_ne {data data' : Bytes} (h : Burst data data') :
    Lfsr.feed polynomial (BitVec.allOnes 32) (bits data) ≠ Lfsr.feed polynomial (BitVec.allOnes 32) (bits data') := by
  obtain ⟨start, hwindow⟩ := h.window
  have hbits : bits data ≠ bits data' := fun heq => h.ne (bits_injective h.length.symm heq).symm
  have hlen : (bits data).length = (bits data').length := by simp [h.length]
  exact Lfsr.feed_burst (by decide) hlen hbits hwindow _

theorem register_of_crc32 {data data' : Bytes} (h : crc32 data = crc32 data') :
    Lfsr.feed polynomial (BitVec.allOnes 32) (bits data) = Lfsr.feed polynomial (BitVec.allOnes 32) (bits data') := by
  have hfeed := congrArg UInt32.toBitVec h
  rwa [crc32_eq_feed, crc32_eq_feed, BitVec.not_eq_comm, BitVec.not_not] at hfeed

/-- Bursts change the checksum field. -/
theorem crcField_burst {data data' : Bytes} (h : Burst data data') : crcField data' ≠ crcField data :=
  fun heq => h.register_ne (register_of_crc32 (crcField_injective heq.symm))

/-- **Bursts are detected.** -/
theorem crc32_burst {data data' : Bytes} (h : Burst data data') : crc32 data' ≠ crc32 data :=
  fun heq => h.register_ne (register_of_crc32 heq.symm)

/-- A burst across the boundary of two bytes. -/
theorem crc32_burst_across : crc32 [0x00, 0x80, 0x01, 0x00] ≠ crc32 [0x00, 0x00, 0x00, 0x00] := by
  refine crc32_burst ⟨rfl, by decide, 15, fun i hi => ?_⟩
  have hlow : ∀ j < 15, (bits [0x00, 0x00, 0x00, 0x00])[j]? = (bits [0x00, 0x80, 0x01, 0x00])[j]? := by decide
  have hlen : i < 32 := by
    by_contra hge
    rw [List.getElem?_eq_none (by simp; omega), List.getElem?_eq_none (by simp; omega)] at hi
    exact hi rfl
  have hge : ¬ i < 15 := fun hlt => hi (hlow i hlt)
  omega

end NutDb
