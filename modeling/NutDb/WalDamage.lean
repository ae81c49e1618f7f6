/-
  Damaged records of the log.

  A record whose checksum field was changed, or whose payload was changed within
  32 consecutive bits, no longer agrees with itself, so `replay` stops in front of
  it (`replay_damaged`).
-/
import NutDb.CrcBurst
import NutDb.Wal

namespace NutDb

open Lib

namespace Wal

/-- What may have become of the frame of a payload: another checksum field, or a burst in the
    payload. -/
inductive Damaged (p : Bytes) : Bytes → Prop
  | checksum {field : Bytes} : field.length = 4 → field ≠ crcField p →
      Damaged p (le 4 p.length ++ field ++ p)
  | payload {p' : Bytes} : Burst p p' → Damaged p (le 4 p.length ++ crcField p ++ p')

section Damage
variable {p q field rest rest' : Bytes}

/-- The fields of a frame can be read off the bytes that it is put together from. -/
theorem fields_of_frame (hq : Fits q) (hfield : field.length = 4) (hp : Fits p)
    (h : le 4 p.length ++ field ++ p ++ rest = frame q ++ rest') : field = crcField q ∧ p = q := by
  rw [frame, List.append_assoc, List.append_assoc, List.append_assoc, List.append_assoc] at h
  obtain ⟨hlen, h⟩ := List.append_inj h (by simp)
  obtain ⟨hcrc, h⟩ := List.append_inj h (by simp [hfield])
  have hlen' : p.length = q.length := by
    rw [← ofLe_le_of_lt (lt_of_lt_of_le hp (by norm_num : 2 ^ 32 ≤ 256 ^ 4)), hlen,
      ofLe_le_of_lt (lt_of_lt_of_le hq (by norm_num))]
  exact ⟨hcrc, (List.append_inj h hlen').1⟩

/-- A damaged frame is none. -/
theorem Damaged.not_startsWithFrame {b : Bytes} (h : Damaged p b) (hp : Fits p) (rest : Bytes) :
    ¬ StartsWithFrame (b ++ rest) := by
  rintro ⟨q, rest', hq, heq⟩
  cases h with
  | checksum hlen hne =>
    obtain ⟨hfield, rfl⟩ := fields_of_frame hq hlen hp heq
    exact hne hfield
  | @payload p' hburst =>
    have hp' : Fits p' := by
      rw [Fits, hburst.length]
      exact hp
    rw [← hburst.length] at heq
    obtain ⟨hfield, rfl⟩ := fields_of_frame hq (length_crcField p) hp' heq
    exact crcField_burst hburst hfield.symm

end Damage

/-- **A damaged record is never replayed**, and nothing behind it: exactly the payloads before it are
    returned, and the log is valid up to where it begins. -/
theorem replay_damaged {ps : List Bytes} (hps : ∀ p ∈ ps, Fits p) {i : ℕ} {p : Bytes} (hi : ps[i]? = some p)
    {b : Bytes} (hb : Damaged p b) :
    frames ps = frames (ps.take i) ++ frame p ++ frames (ps.drop (i + 1)) ∧
    replay (frames (ps.take i) ++ b ++ frames (ps.drop (i + 1))) =
      ⟨ps.take i, true, (frames (ps.take i)).length⟩ := by
  obtain ⟨hlt, rfl⟩ := List.getElem?_eq_some_iff.1 hi
  constructor
  · rw [← frames_singleton, ← frames_append, ← frames_append, List.take_concat_get' _ _ hlt,
      List.take_append_drop]
  · have hne : b ++ frames (ps.drop (i + 1)) ≠ [] := by
      intro hnil
      have hlen := congrArg List.length (List.append_eq_nil_iff.1 hnil).1
      cases hb <;> simp at hlen
    rw [List.append_assoc, replay_eq (fun q hq => hps q (List.mem_of_mem_take hq))
      (hb.not_startsWithFrame (hps _ (List.getElem_mem hlt)) _)]
    simp [hne]

/-- The lowest bit of the second byte. -/
theorem burst_flip : Burst [2, 3] [2, 2] := by
  refine ⟨rfl, by decide, 8, fun i h => ?_⟩
  by_contra hi
  have hsame : ∀ i < 16, ¬ (8 ≤ i ∧ i < 8 + 32) → (bits [2, 3])[i]? = (bits [2, 2])[i]? := by decide +kernel
  by_cases hlt : i < 16
  · exact h (hsame i hlt hi)
  · exact h (by rw [List.getElem?_eq_none (by simp; omega), List.getElem?_eq_none (by simp; omega)])

theorem replay_damaged_flip :
    replay (frames [[1]] ++ (le 4 2 ++ crcField [2, 3] ++ [2, 2]) ++ frames [[4]]) = ⟨[[1]], true, 9⟩ := by
  have hps : ∀ p ∈ ([[1], [2, 3], [4]] : List Bytes), Fits p := by decide
  have hi : ([[1], [2, 3], [4]] : List Bytes)[1]? = some [2, 3] := rfl
  exact (replay_damaged hps hi (.payload burst_flip)).2

end Wal

end NutDb
