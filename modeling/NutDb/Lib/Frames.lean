/-
  Streams of frames.

  Values are sent one after the other, each as its frame.  When no frame is empty
  or begins with another one (`PrefixCode`), the receiver can tell them apart:
  every stream is a list of frames and a rest that begins with none
  (`exists_frames`), and a stream that is cut off has the frames that are whole
  (`frames_cut`).
-/
import Mathlib.Data.List.Infix
import Mathlib.Order.Basic

namespace Lib

variable {α β : Type} {frame : α → List β} {Fits : α → Prop}

/-- No frame of a value that fits is empty, or begins with another one. -/
structure PrefixCode (frame : α → List β) (Fits : α → Prop) : Prop where
  nonempty : ∀ {p}, Fits p → frame p ≠ []
  free : ∀ {p q}, Fits p → Fits q → frame p <+: frame q → p = q

/-- The stream begins with a frame. -/
def Begins (frame : α → List β) (Fits : α → Prop) (b : List β) : Prop := ∃ p, Fits p ∧ frame p <+: b

namespace PrefixCode
variable {ps : List α} {t b : List β}

/-- What is missing something of a frame begins with none. -/
theorem not_begins (h : PrefixCode frame Fits) {p : α} (hp : Fits p) (ht : t <+: frame p) (hne : t ≠ frame p) :
    ¬ Begins frame Fits t := by
  rintro ⟨q, hq, hqt⟩
  obtain rfl := h.free hq hp (hqt.trans ht)
  exact hne (ht.eq_of_length (le_antisymm ht.length_le hqt.length_le))

theorem not_begins_nil (h : PrefixCode frame Fits) : ¬ Begins frame Fits [] := by
  rintro ⟨p, hp, hpre⟩
  exact h.nonempty hp (List.prefix_nil.1 hpre)

/-- **Every stream** is a list of frames, and a rest that begins with none. -/
theorem exists_frames (h : PrefixCode frame Fits) (b : List β) :
    ∃ (ps : List α) (t : List β), (∀ p ∈ ps, Fits p) ∧ ¬ Begins frame Fits t ∧ b = ps.flatMap frame ++ t := by
  induction hlen : b.length using Nat.strongRecOn generalizing b with
  | _ n ih =>
    by_cases hb : Begins frame Fits b
    · obtain ⟨p, hp, rest, rfl⟩ := hb
      have hpos := List.length_pos_iff.2 (h.nonempty hp)
      rw [List.length_append] at hlen
      obtain ⟨ps, t, hps, ht, rfl⟩ := ih rest.length (by omega) rest rfl
      refine ⟨p :: ps, t, fun q hq => ?_, ht, by rw [List.flatMap_cons, List.append_assoc]⟩
      rcases List.mem_cons.1 hq with rfl | hq
      · exact hp
      · exact hps q hq
    · exact ⟨[], b, fun p hp => absurd hp List.not_mem_nil, hb, rfl⟩

/-- **A stream that is cut off** has the frames that are whole, and a part of the next one. -/
theorem frames_cut (h : PrefixCode frame Fits) (hps : ∀ p ∈ ps, Fits p) (hcut : b <+: ps.flatMap frame) :
    ∃ k ≤ ps.length, ∃ t, b = (ps.take k).flatMap frame ++ t ∧ ¬ Begins frame Fits t ∧
      (ps.length = k → t = []) ∧ ∀ p, ps[k]? = some p → t <+: frame p ∧ t ≠ frame p := by
  induction ps generalizing b with
  | nil =>
    obtain rfl := List.prefix_nil.1 hcut
    exact ⟨0, le_rfl, [], rfl, h.not_begins_nil, fun _ => rfl, fun p hp => nomatch hp⟩
  | cons p ps ih =>
    have hp := hps p List.mem_cons_self
    rw [List.flatMap_cons] at hcut
    by_cases hwhole : frame p <+: b
    · obtain ⟨b, rfl⟩ := hwhole
      obtain ⟨k, hk, t, rfl, ht, hend, hnext⟩ :=
        ih (fun q hq => hps q (List.mem_cons_of_mem _ hq)) ((List.prefix_append_right_inj _).1 hcut)
      refine ⟨k + 1, Nat.succ_le_succ hk, t, ?_, ht, fun hlen => hend (Nat.succ.inj hlen), hnext⟩
      rw [List.take_succ_cons, List.flatMap_cons, List.append_assoc]
    · have hpart : b <+: frame p :=
        (List.prefix_or_prefix_of_prefix hcut (List.prefix_append _ _)).resolve_right hwhole
      have hne : b ≠ frame p := by
        rintro rfl
        exact hwhole List.prefix_rfl
      refine ⟨0, Nat.zero_le _, b, rfl, h.not_begins hp hpart hne, fun hlen => absurd hlen (Nat.succ_ne_zero _), fun q hq => ?_⟩
      obtain rfl := Option.some.inj hq
      exact ⟨hpart, hne⟩

end PrefixCode

end Lib
