/-
  CRC-32 (IEEE 802.3), the checksum of log records and pages (`src/crc.rs`).
-/
import NutDb.Lib.Outcome

namespace NutDb

open Lib

/-- The reflected generator polynomial. -/
def POLYNOMIAL : UInt32 := 0xEDB88320

/-- One turn of the inner loop: the mask is all-ones when the low bit is set. -/
def crcBit (crc : UInt32) : UInt32 :=
  let mask := 0 - (crc &&& 1)
  (crc >>> 1) ^^^ (POLYNOMIAL &&& mask)

/-- One turn of the outer loop: feed one byte. -/
def crcByte (crc : UInt32) (byte : UInt8) : UInt32 :=
  crcBit^[8] (crc ^^^ byte.toUInt32)

/-- `crc32`: the checksum of `data`. -/
def crc32 (data : Bytes) : UInt32 :=
  ~~~ data.foldl crcByte 0xFFFFFFFF

/-- The checksum as stored, four little-endian bytes. -/
def crcField (data : Bytes) : Bytes := le 4 (crc32 data).toNat

@[simp] theorem length_crcField (data : Bytes) : (crcField data).length = 4 := length_le 4 _

theorem ofLe_crcField (data : Bytes) : ofLe (crcField data) = (crc32 data).toNat :=
  ofLe_le_of_lt (lt_of_lt_of_le (crc32 data).toNat_lt (by norm_num))

-- the standard check value of `123456789`
example : crc32 [49, 50, 51, 52, 53, 54, 55, 56, 57] = 0xCBF43926 := by decide +kernel

end NutDb
