/-
  Timelines: lists of things that exist one after the other.

  Each has a start and, if it is over, an end.  In a timeline everything but the
  last is over, and nothing starts before the one before it has ended
  (`Timeline`).  So at any time at most one of them exists (`length_covers_le_one`),
  and a search finds it in whatever order it goes (`Timeline.find`).
-/
import Mathlib.Data.List.Induction
import Mathlib.Data.List.ModifyLast
import Mathlib.Order.Lattice

namespace Lib

variable {α β : Type} [LinearOrder α] {start : β → α} {stop : β → Option α}

/-- The second begins when the first is over, or later. -/
def Ends (start : β → α) (stop : β → Option α) (v w : β) : Prop := ∃ d, stop v = some d ∧ d ≤ start w

/-- A list of things that exist one after the other, and all of whose times are not after `now`. -/
structure Timeline (start : β → α) (stop : β → Option α) (now : α) (l : List β) : Prop where
  apart : l.Pairwise (Ends start stop)
  proper : ∀ v ∈ l, ∀ d, stop v = some d → start v < d
  old : ∀ v ∈ l, start v ≤ now ∧ ∀ d, stop v = some d → d ≤ now

/-- It exists at the time `s`. -/
def Covers (start : β → α) (stop : β → Option α) (s : α) (v : β) : Prop :=
  start v ≤ s ∧ ∀ d, stop v = some d → s < d

section Timeline
variable {now ts s : α} {l l' : List β} {v w : β}

theorem timeline_nil (now : α) : Timeline start stop now [] :=
  ⟨List.Pairwise.nil, fun _ hv => absurd hv List.not_mem_nil, fun _ hv => absurd hv List.not_mem_nil⟩

/-- Things can be left out. -/
theorem Timeline.sublist (h : Timeline start stop now l) (hsub : l'.Sublist l) : Timeline start stop now l' :=
  ⟨h.apart.sublist hsub, fun v hv => h.proper v (hsub.subset hv), fun v hv => h.old v (hsub.subset hv)⟩

/-- Time goes on. -/
theorem Timeline.mono (h : Timeline start stop now l) (hle : now ≤ ts) : Timeline start stop ts l := by
  refine ⟨h.apart, h.proper, fun v hv => ?_⟩
  obtain ⟨hstart, hstop⟩ := h.old v hv
  exact ⟨hstart.trans hle, fun d hd => (hstop d hd).trans hle⟩

/-- **The last one ends** at a later time, unless it is over. -/
theorem Timeline.close (h : Timeline start stop now l) (hlt : now < ts) {close : β → β}
    (hstart : ∀ v, start (close v) = start v) (hstop : ∀ v, stop (close v) = some ((stop v).getD ts)) :
    Timeline start stop ts (l.modifyLast close) ∧ ∀ v ∈ l.modifyLast close, ∃ d, stop v = some d ∧ d ≤ ts := by
  induction l using List.reverseRecOn with
  | nil => exact ⟨timeline_nil ts, fun v hv => absurd hv List.not_mem_nil⟩
  | append_singleton l v _ =>
    rw [List.modifyLast_concat]
    obtain ⟨hl, -, hends⟩ := List.pairwise_append.1 h.apart
    have hv : v ∈ l ++ [v] := List.mem_append_right _ (List.mem_singleton_self v)
    have hclosed : (stop v).getD ts ≤ ts ∧ start v < (stop v).getD ts := by
      cases hd : stop v with
      | none => exact ⟨le_rfl, (h.old v hv).1.trans_lt hlt⟩
      | some d => exact ⟨((h.old v hv).2 d hd).trans hlt.le, h.proper v hv d hd⟩
    refine ⟨⟨?_, fun w hw d hd => ?_, fun w hw => ?_⟩, fun w hw => ?_⟩
    · refine List.pairwise_append.2 ⟨hl, List.pairwise_singleton _ _, fun u hu w hw => ?_⟩
      rw [List.mem_singleton.1 hw, Ends, hstart]
      exact hends u hu v (List.mem_singleton_self v)
    · rcases List.mem_append.1 hw with hw | hw
      · exact h.proper w (List.mem_append_left _ hw) d hd
      · rw [List.mem_singleton.1 hw] at hd ⊢
        rw [hstop] at hd
        rw [hstart, ← Option.some.inj hd]
        exact hclosed.2
    · rcases List.mem_append.1 hw with hw | hw
      · exact (h.mono hlt.le).old w (List.mem_append_left _ hw)
      · rw [List.mem_singleton.1 hw, hstart]
        refine ⟨(h.old v hv).1.trans hlt.le, fun d hd => ?_⟩
        rw [hstop] at hd
        rw [← Option.some.inj hd]
        exact hclosed.1
    · rcases List.mem_append.1 hw with hw | hw
      · obtain ⟨d, hd, -⟩ := hends w hw v (List.mem_singleton_self v)
        exact ⟨d, hd, ((h.old w (List.mem_append_left _ hw)).2 d hd).trans hlt.le⟩
      · rw [List.mem_singleton.1 hw]
        exact ⟨_, hstop v, hclosed.1⟩

/-- **The next one starts**, when all others are over. -/
theorem Timeline.concat (h : Timeline start stop now l) (hover : ∀ v ∈ l, ∃ d, stop v = some d ∧ d ≤ now)
    (hstart : start v = now) (hstop : stop v = none) : Timeline start stop now (l ++ [v]) := by
  refine ⟨?_, fun w hw d hd => ?_, fun w hw => ?_⟩
  · refine List.pairwise_append.2 ⟨h.apart, List.pairwise_singleton _ _, fun u hu w hw => ?_⟩
    rw [List.mem_singleton.1 hw, Ends, hstart]
    exact hover u hu
  · rcases List.mem_append.1 hw with hw | hw
    · exact h.proper w hw d hd
    · rw [List.mem_singleton.1 hw, hstop] at hd
      cases hd
  · rcases List.mem_append.1 hw with hw | hw
    · exact h.old w hw
    · rw [List.mem_singleton.1 hw, hstart, hstop]
      exact ⟨le_rfl, fun d hd => (nomatch hd)⟩

/-! ## What a timeline looks like -/

/-- The starts increase. -/
theorem Timeline.increasing (h : Timeline start stop now l) : l.Pairwise fun v w => start v < start w := by
  refine h.apart.imp_of_mem fun {v w} hv _ hends => ?_
  obtain ⟨d, hd, hle⟩ := hends
  exact (h.proper v hv d hd).trans_le hle

/-- All but the last are over. -/
theorem Timeline.closed (h : Timeline start stop now l) : ∀ v ∈ l.dropLast, ∃ d, stop v = some d := by
  induction l using List.reverseRecOn with
  | nil => exact fun v hv => absurd hv List.not_mem_nil
  | append_singleton l w _ =>
    rw [List.dropLast_concat]
    intro v hv
    obtain ⟨d, hd, -⟩ := (List.pairwise_append.1 h.apart).2.2 v hv w (List.mem_singleton_self w)
    exact ⟨d, hd⟩

/-- Two different things do not exist at the same time. -/
theorem Ends.disjoint (h : Ends start stop v w) (hv : Covers start stop s v) : ¬ Covers start stop s w := by
  obtain ⟨d, hd, hle⟩ := h
  exact fun hw => absurd (hle.trans hw.1) (not_le.2 (hv.2 d hd))

/-- **At any time at most one exists.** -/
theorem length_covers_le_one (h : Timeline start stop now l) {p : β → Bool}
    (hp : ∀ v, p v = true → Covers start stop s v) : (l.filter p).length ≤ 1 := by
  have hapart : (l.filter p).Pairwise (Ends start stop) := h.apart.sublist List.filter_sublist
  have hcovers : ∀ v ∈ l.filter p, Covers start stop s v := fun v hv => hp v (List.mem_filter.1 hv).2
  match hf : l.filter p with
  | [] => exact Nat.zero_le 1
  | [_] => exact le_rfl
  | v :: w :: rest =>
    rw [hf] at hapart hcovers
    have hends : Ends start stop v w := (List.pairwise_cons.1 hapart).1 w List.mem_cons_self
    exact absurd (hcovers w (List.mem_cons_of_mem _ List.mem_cons_self))
      (hends.disjoint (hcovers v List.mem_cons_self))

end Timeline

/-- What has at most one place in a list is found from every side. -/
theorem find?_of_perm {l l' : List β} {p : β → Bool} (hperm : l'.Perm l) (h : (l.filter p).length ≤ 1) :
    l'.find? p = l.find? p := by
  have hfilter : (l'.filter p).Perm (l.filter p) := hperm.filter p
  rw [← List.head?_filter, ← List.head?_filter]
  match hf : l.filter p with
  | [] =>
    rw [hf] at hfilter
    rw [hfilter.eq_nil]
  | [v] =>
    rw [hf] at hfilter
    rw [List.perm_singleton.1 hfilter]
  | v :: w :: rest =>
    rw [hf] at h
    exact absurd h (by simp)

/-- **The search** for what exists at a time gives the same in every order. -/
theorem Timeline.find {now s : α} {l l' : List β} (h : Timeline start stop now l) (hperm : l'.Perm l)
    {p : β → Bool} (hp : ∀ v, p v = true → Covers start stop s v) : l'.find? p = l.find? p :=
  find?_of_perm hperm (length_covers_le_one h hp)

end Lib
