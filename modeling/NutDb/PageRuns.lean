/-
  Pages that cells are offered to, and pages that were damaged.

  `insertCell` is `insert` with the page that it borrows as its state.  However
  many cells are offered to a new page, those that fit are accepted, the others
  leave the page alone, and the finished page is read back (`page_round_trip`).

  `from_bytes` reads only inside of the page, whatever the page holds, and what
  it accepts can be read (`fromBytes_safe`).  A finished page with one bit
  flipped is refused.
-/
import NutDb.CrcBurst
import NutDb.Page
import NutDb.Lib.Act

namespace NutDb

open Lib

namespace SlottedPage

/-! ## Offering cells -/

/-- `copy_from_slice` on the page that a method borrows. -/
def store (o : ℕ) (x : Bytes) : Act Page Unit := fun b =>
  match write b o x with
  | .ok b' => (.ok (), b')
  | .error e => (.error e, b)

/-- `SlottedPage::insert`, which changes the page step by step. -/
def insertCell (cell : Bytes) : Act Page Unit :=
  if cell.length < 2 ^ 16 then do
    let b ← Act.gets fun b => b
    let count ← Act.lift (getU16 b 6)
    let front ← Act.lift (getU16 b 8)
    let back ← Act.lift (getU16 b 10)
    if back - front < 2 + 2 + cell.length then Act.fail .writeZero "page: no free space"
    else do
      let cellAt := back - 2 - cell.length
      store cellAt (le 2 cell.length)
      store (cellAt + 2) cell
      store front (le 2 cellAt)
      store 6 (le 2 (count + 1))
      store 8 (le 2 (front + 2))
      store 10 (le 2 cellAt)
  else Act.fail .invalidInput "page: cell too large"

/-- What cells need in a page: each one a slot and a length field. -/
def needed (cells : List Bytes) : ℕ := (cells.map fun c => c.length + 4).sum

/-- The cells whose insertion succeeded. -/
def accepted : List Bytes → List (Res Unit) → List Bytes
  | cell :: cells, .ok () :: results => cell :: accepted cells results
  | _ :: cells, .error _ :: results => accepted cells results
  | _, _ => []

section Insert
variable {b b' : Page} {k : PageKind} {cs : List Bytes} {c : Bytes}

theorem store_run {o : ℕ} {x : Bytes} (h : write b o x = .ok b') : (store o x).run b = (.ok (), b') := by
  simp only [Act.run, store, h]

theorem needed_eq (cells : List Bytes) : needed cells = cells.length * 2 + used cells := by
  induction cells with
  | nil => rfl
  | cons c cells ih =>
    have hneeded : needed (c :: cells) = c.length + 4 + needed cells := rfl
    have hused : used (c :: cells) = c.length + 2 + used cells := rfl
    rw [hneeded, hused, ih, List.length_cons]
    omega

/-- An insertion that succeeds does the same step by step. -/
theorem insertCell_of_ok (h : insert b c = .ok b') : (insertCell c).run b = (.ok (), b') := by
  unfold insert at h
  unfold insertCell
  split_ifs at h ⊢ with hlen
  swap
  · cases h
  obtain ⟨count, hcount, h⟩ := Res.bind_eq_ok.1 h
  obtain ⟨front, hfront, h⟩ := Res.bind_eq_ok.1 h
  obtain ⟨back, hback, h⟩ := Res.bind_eq_ok.1 h
  rw [Act.run_bind_ok (Act.run_gets _ b), hcount, Act.run_bind_ok (Act.run_lift _ b), hfront,
    Act.run_bind_ok (Act.run_lift _ b), hback, Act.run_bind_ok (Act.run_lift _ b)]
  split_ifs at h ⊢ with hroom
  · cases h
  · obtain ⟨b₁, h₁, h⟩ := Res.bind_eq_ok.1 h
    obtain ⟨b₂, h₂, h⟩ := Res.bind_eq_ok.1 h
    obtain ⟨b₃, h₃, h⟩ := Res.bind_eq_ok.1 h
    obtain ⟨b₄, h₄, h⟩ := Res.bind_eq_ok.1 h
    obtain ⟨b₅, h₅, h₆⟩ := Res.bind_eq_ok.1 h
    rw [Act.run_bind_ok (store_run h₁), Act.run_bind_ok (store_run h₂), Act.run_bind_ok (store_run h₃),
      Act.run_bind_ok (store_run h₄), Act.run_bind_ok (store_run h₅), store_run h₆]

/-- **`insert` on a page with cells**: it succeeds if the cell fits, and else leaves the page alone. -/
theorem insertCell_cases (hb : Holds b k cs) (c : Bytes) :
    (needed (cs ++ [c]) ≤ PAGE_SIZE - HEADER_SIZE ∧
      ∃ b', (insertCell c).run b = (.ok (), b') ∧ Holds b' k (cs ++ [c])) ∨
    (PAGE_SIZE - HEADER_SIZE < needed (cs ++ [c]) ∧ ∃ e, (insertCell c).run b = (.error (.io e), b)) := by
  have hP : PAGE_SIZE = 4096 := rfl
  have hH : HEADER_SIZE = 16 := rfl
  have hneeded : needed (cs ++ [c]) = (cs.length + 1) * 2 + used (cs ++ [c]) := by
    rw [needed_eq, List.length_append, List.length_singleton]
  obtain ⟨hroom, b', hrun, hb'⟩ | ⟨hroom, -⟩ := insert_holds (c := c) hb
  · exact Or.inl ⟨by omega, b', insertCell_of_ok hrun, hb'⟩
  · refine Or.inr ⟨by omega, ?_⟩
    rw [used_concat] at hroom
    have hbroom := hb.room
    unfold insertCell
    split_ifs with hlen
    · have hfull : PAGE_SIZE - used cs - (HEADER_SIZE + cs.length * 2) < 2 + 2 + c.length := by omega
      rw [Act.run_bind_ok (Act.run_gets _ b), getU16_of_at hb.count (by omega) (by omega),
        Act.run_bind_ok (Act.run_lift _ b), getU16_of_at hb.front (by omega) (by omega),
        Act.run_bind_ok (Act.run_lift _ b), getU16_of_at hb.back (by omega) (by omega),
        Act.run_bind_ok (Act.run_lift _ b), if_pos hfull]
      exact ⟨_, rfl⟩
    · exact ⟨_, rfl⟩

/-- **All cells that are offered**: the page holds those that were accepted. -/
theorem calls_holds (hb : Holds b k cs) (offered : List Bytes) :
    Holds (Act.calls (offered.map insertCell) b).2 k
      (cs ++ accepted offered (Act.calls (offered.map insertCell) b).1) := by
  induction offered generalizing b cs with
  | nil => simpa [Act.calls, accepted] using hb
  | cons c offered ih =>
    rw [List.map_cons, Act.calls]
    obtain ⟨-, b', hrun, hb'⟩ | ⟨-, e, hrun⟩ := insertCell_cases hb c
    · rw [hrun]
      have hrest := ih hb'
      rw [List.append_assoc] at hrest
      exact hrest
    · rw [hrun]
      exact ih hb

end Insert

/-! ## The layout of a page -/

/-- The parts of a page, with their offsets and lengths: the header, the slots and the cells, each with
    its length field. -/
def regions (cells : List Bytes) : List (ℕ × ℕ) :=
  (0, HEADER_SIZE) :: (List.range cells.length).map (fun i => (HEADER_SIZE + i * 2, 2)) ++
    (List.range cells.length).map fun i => (cellOffset cells i, 2 + (cells.getD i []).length)

/-- The parts do not overlap. -/
def Apart (r r' : ℕ × ℕ) : Prop := r.1 + r.2 ≤ r'.1 ∨ r'.1 + r'.2 ≤ r.1

/-- The numbers in a page are those that its cells call for. -/
structure Counted (b : Page) (cells : List Bytes) : Prop where
  count : getU16 b 6 = .ok cells.length
  front : getU16 b 8 = .ok (HEADER_SIZE + cells.length * 2)
  back : getU16 b 10 = .ok (PAGE_SIZE - used cells)
  slot : ∀ i < cells.length, getU16 b (HEADER_SIZE + i * 2) = .ok (cellOffset cells i)
  length : ∀ i < cells.length, getU16 b (cellOffset cells i) = .ok (cells.getD i []).length

section Layout
variable {b : Page} {k : PageKind} {cs : List Bytes}

theorem getD_of_lt {i : ℕ} (hi : i < cs.length) : cs[i]? = some (cs.getD i []) := by
  rw [List.getD_eq_getElem?_getD, List.getElem?_eq_getElem hi, Option.getD_some]

/-- A cell begins where the next one ends. -/
theorem cellOffset_succ {i : ℕ} (hi : i + 1 < cs.length) (hu : used cs ≤ PAGE_SIZE) :
    cellOffset cs (i + 1) + (2 + (cs.getD (i + 1) []).length) = cellOffset cs i := by
  have htake : used (cs.take (i + 1 + 1)) = used (cs.take (i + 1)) + ((cs.getD (i + 1) []).length + 2) := by
    rw [List.take_add_one, getD_of_lt hi]
    exact used_concat _ _
  have hle := used_take_le cs (i + 1 + 1)
  rw [cellOffset, cellOffset]
  omega

theorem cellOffset_lt {i j : ℕ} (hij : i < j) (hj : j < cs.length) (hu : used cs ≤ PAGE_SIZE) :
    cellOffset cs j + (2 + (cs.getD j []).length) ≤ cellOffset cs i := by
  induction j, hij using Nat.le_induction with
  | base => exact (cellOffset_succ hj hu).le
  | succ j hij ih =>
    have hstep := cellOffset_succ hj hu
    have hrest := ih (by omega)
    omega

theorem pairwise_regions (hb : Holds b k cs) : (regions cs).Pairwise Apart := by
  have hroom := hb.room
  have hH : HEADER_SIZE = 16 := rfl
  have hbounds : ∀ i < cs.length, HEADER_SIZE + cs.length * 2 ≤ cellOffset cs i := by
    intro i hi
    have hcell := (cellOffset_bounds (getD_of_lt hi) (by omega)).1
    omega
  refine List.pairwise_append.2 ⟨List.pairwise_cons.2 ⟨fun r hr => ?_, ?_⟩, ?_, fun r hr r' hr' => ?_⟩
  · obtain ⟨i, -, rfl⟩ := List.mem_map.1 hr
    exact Or.inl (by simp)
  · refine List.pairwise_map.2 (List.Pairwise.imp ?_ List.pairwise_lt_range)
    intro i j hij
    exact Or.inl (by simp only; omega)
  · refine List.pairwise_map.2 (List.Pairwise.imp_of_mem ?_ List.pairwise_lt_range)
    intro i j _ hj hij
    exact Or.inr (cellOffset_lt hij (List.mem_range.1 hj) (by omega))
  · obtain ⟨j, hj, rfl⟩ := List.mem_map.1 hr'
    have hj := hbounds j (List.mem_range.1 hj)
    rcases List.mem_cons.1 hr with rfl | hr
    · exact Or.inl (by simp only; omega)
    · obtain ⟨i, hi, rfl⟩ := List.mem_map.1 hr
      have hi := List.mem_range.1 hi
      exact Or.inl (by simp only; omega)

theorem regions_le (hb : Holds b k cs) : ∀ r ∈ regions cs, r.1 + r.2 ≤ PAGE_SIZE := by
  have hroom := hb.room
  have hP : PAGE_SIZE = 4096 := rfl
  have hH : HEADER_SIZE = 16 := rfl
  intro r hr
  rcases List.mem_append.1 hr with hr | hr
  · rcases List.mem_cons.1 hr with rfl | hr
    · simp only
      omega
    · obtain ⟨i, hi, rfl⟩ := List.mem_map.1 hr
      have hi := List.mem_range.1 hi
      simp only
      omega
  · obtain ⟨i, hi, rfl⟩ := List.mem_map.1 hr
    have hcell := (cellOffset_bounds (getD_of_lt (List.mem_range.1 hi)) (by omega)).2
    simp only
    omega

theorem Holds.counted (hb : Holds b k cs) : Counted b cs := by
  have hroom := hb.room
  have hP : PAGE_SIZE = 4096 := rfl
  have hH : HEADER_SIZE = 16 := rfl
  refine ⟨getU16_of_at hb.count (by omega) (by omega), getU16_of_at hb.front (by omega) (by omega),
    getU16_of_at hb.back (by omega) (by omega), fun i hi => ?_, fun i hi => ?_⟩
  · have hcell := (cellOffset_bounds (getD_of_lt hi) (by omega)).2
    exact getU16_of_at (hb.slot i _ (getD_of_lt hi)) (by omega) (by omega)
  · have hcell := (cellOffset_bounds (getD_of_lt hi) (by omega)).2
    obtain ⟨hlen, -⟩ := At.append_iff.1 (hb.cell i _ (getD_of_lt hi))
    exact getU16_of_at hlen (by omega) (by omega)

end Layout

/-- **Slotted pages.**  Whatever cells are offered to a new page, the next one is accepted exactly if
    all accepted ones and it fit, and else the page stays as it is; the finished page is read back with
    its kind and the accepted cells, in order.  Its parts do not overlap, and the numbers in it are
    exact. -/
theorem page_round_trip (k : PageKind) (offered : List Bytes) : ∃ b₀, new k = .ok b₀ ∧
    ∀ b cs, b = (Act.calls (offered.map insertCell) b₀).2 →
      cs = accepted offered (Act.calls (offered.map insertCell) b₀).1 →
    (∀ c, (((insertCell c).run b).1 = .ok () ↔ needed (cs ++ [c]) ≤ PAGE_SIZE - HEADER_SIZE) ∧
      (((insertCell c).run b).1 ≠ .ok () → ((insertCell c).run b).2 = b)) ∧
    ∃ b', finish b = .ok b' ∧ fromBytes b' = .ok b' ∧ kind b' = .ok k ∧ cells b' = .ok cs ∧
      Counted b' cs ∧ (regions cs).Pairwise Apart ∧ ∀ r ∈ regions cs, r.1 + r.2 ≤ PAGE_SIZE := by
  obtain ⟨b₀, hnew, hb₀⟩ := new_holds k
  refine ⟨b₀, hnew, ?_⟩
  rintro b cs rfl rfl
  have hb := calls_holds hb₀ offered
  rw [List.nil_append] at hb
  refine ⟨fun c => ?_, ?_⟩
  · obtain ⟨hroom, b', hrun, -⟩ | ⟨hroom, e, hrun⟩ := insertCell_cases hb c
    · rw [hrun]
      exact ⟨iff_of_true rfl hroom, fun h => absurd rfl h⟩
    · rw [hrun]
      exact ⟨iff_of_false (by simp) (not_le.2 hroom), fun _ => rfl⟩
  · obtain ⟨b', hfinish, hfrom, hkind, hcells⟩ := fromBytes_finish hb
    obtain ⟨b'', hfinish', hb'', -⟩ := finish_holds hb
    obtain rfl : b' = b'' := Except.ok.inj (hfinish.symm.trans hfinish')
    exact ⟨b', hfinish, hfrom, hkind, hcells, hb''.counted, pairwise_regions hb, regions_le hb⟩

/-! ## Pages that were not made by `finish` -/

/-- A cell and its length field lie inside of the page, where its slot says. -/
def Inside (b : Page) (i : ℕ) (c : Bytes) : Prop :=
  ∃ offset, getU16 b (HEADER_SIZE + i * 2) = .ok offset ∧ HEADER_SIZE ≤ offset ∧
    offset + 2 + c.length ≤ PAGE_SIZE ∧ At b.1 offset (le 2 c.length ++ c)

section Read
variable {b b' : Page} {i o n : ℕ} {c : Bytes} {cs : List Bytes}

theorem read_eq (h : o + n ≤ PAGE_SIZE) : read b o n = .ok (slice b.1 o n) := if_pos h

theorem getU16_eq (h : o + 2 ≤ PAGE_SIZE) : getU16 b o = .ok (ofLe (slice b.1 o 2)) := by
  rw [getU16, read_eq h]
  rfl

theorem length_slice_page (h : o + n ≤ PAGE_SIZE) : (slice b.1 o n).length = n :=
  length_slice (by rw [b.2]; exact h)

theorem at_le_slice (h : o + 2 ≤ PAGE_SIZE) : At b.1 o (le 2 (ofLe (slice b.1 o 2))) := by
  have hlen := length_slice_page (b := b) h
  have hslice := le_ofLe (slice b.1 o 2)
  rw [hlen] at hslice
  rw [hslice, At, hlen]

theorem Returns.decode (value : UInt8) : Res.Returns (PageKind.decode value) := by
  unfold PageKind.decode
  split_ifs
  · exact Res.returns_ok _
  · exact Res.returns_ok _
  · exact Res.returns_ok _
  · exact Res.returns_fail _ _

/-- A turn of the loop of `cells` stays inside of the page if the slot does. -/
theorem cellAtSlot_returns (hslot : HEADER_SIZE + i * 2 + 2 ≤ PAGE_SIZE) :
    Res.Returns (cellAtSlot b i) := by
  rw [cellAtSlot, getU16_eq hslot, Res.ok_bind]
  split_ifs with hoffset
  · exact Res.returns_fail _ _
  · rw [getU16_eq (by omega), Res.ok_bind]
    dsimp only
    split_ifs with hend
    · rw [read_eq hend]
      exact Res.returns_ok _
    · exact Res.returns_fail _ _

theorem inside_of_cellAtSlot (hslot : HEADER_SIZE + i * 2 + 2 ≤ PAGE_SIZE)
    (h : cellAtSlot b i = .ok c) : Inside b i c := by
  rw [cellAtSlot, getU16_eq hslot, Res.ok_bind] at h
  split_ifs at h with hoffset
  · cases h
  rw [getU16_eq (by omega), Res.ok_bind] at h
  dsimp only at h
  split_ifs at h with hend
  · rw [read_eq hend] at h
    have hc := Except.ok.inj h
    have hlen := length_slice_page (b := b) hend
    rw [hc] at hlen
    refine ⟨_, getU16_eq hslot, by omega, by omega, At.append_iff.2 ⟨?_, ?_⟩⟩
    · rw [hlen]
      exact at_le_slice (by omega)
    · rw [length_le, At, hlen, hc]
  · cases h

/-- What `from_bytes` has checked of a page that it accepts. -/
structure Checked (b : Page) : Prop where
  kind : ∃ code k, Res.get b.1 5 = .ok code ∧ PageKind.decode code = .ok k
  slots : HEADER_SIZE + ofLe (slice b.1 6 2) * 2 ≤ PAGE_SIZE
  crc : ∃ z, write b 12 [0, 0, 0, 0] = .ok z ∧ crcField z.1 = slice b.1 12 4
  cells : ∃ cs, cells b = .ok cs

theorem crcField_of_ofLe {data x : Bytes} (hx : x.length = 4) (h : (crc32 data).toNat = ofLe x) :
    crcField data = x := by
  rw [crcField, h, ← hx, le_ofLe]

/-- `cells` stays inside of a page whose slots do. -/
theorem cells_returns (hslots : HEADER_SIZE + ofLe (slice b.1 6 2) * 2 ≤ PAGE_SIZE) :
    Res.Returns (cells b) := by
  rw [cells, getU16_eq (by decide), Res.ok_bind]
  refine Res.Returns.mapM fun i hi => cellAtSlot_returns ?_
  have hi := List.mem_range.1 hi
  omega

/-- **`from_bytes` on any array**: it returns, and has checked what it accepts. -/
theorem fromBytes_checked (b : Page) :
    (∃ e, fromBytes b = .error (.io e)) ∨ fromBytes b = .ok b ∧ Checked b := by
  have hP : PAGE_SIZE = 4096 := rfl
  have hcode : 5 < b.1.length := by rw [b.2]; decide
  obtain ⟨z, hz, -⟩ := write_eq (b := b) (o := 12) (x := [0, 0, 0, 0]) (by decide)
  have hget : Res.get b.1 5 = .ok b.1[5] := Res.get_of_getElem? (List.getElem?_eq_getElem hcode)
  rw [fromBytes, read_eq (by decide), Res.ok_bind]
  split_ifs
  · exact Or.inl ⟨_, rfl⟩
  rw [read_eq (by decide), Res.ok_bind]
  split_ifs
  · exact Or.inl ⟨_, rfl⟩
  rw [hget, Res.ok_bind]
  rcases (Returns.decode b.1[5]).cases with ⟨k, hk⟩ | ⟨e, he⟩
  swap
  · rw [he]
    exact Or.inl ⟨e, rfl⟩
  rw [hk, Res.ok_bind, getU16_eq (by decide), Res.ok_bind, getU16_eq (by decide), Res.ok_bind,
    getU16_eq (by decide), Res.ok_bind]
  split_ifs with hbounds
  · exact Or.inl ⟨_, rfl⟩
  rw [read_eq (by decide), Res.ok_bind, hz, Res.ok_bind]
  split_ifs with hcrc
  · exact Or.inl ⟨_, rfl⟩
  have hslots : HEADER_SIZE + ofLe (slice b.1 6 2) * 2 ≤ PAGE_SIZE := by omega
  rcases (cells_returns hslots).cases with ⟨cs, hcs⟩ | ⟨e, he⟩
  · rw [hcs]
    refine Or.inr ⟨rfl, ⟨_, k, hget, hk⟩, hslots, ⟨z, hz, crcField_of_ofLe ?_ (not_not.1 hcrc)⟩, cs, hcs⟩
    exact length_slice_page (by decide)
  · rw [he]
    exact Or.inl ⟨e, rfl⟩

theorem Checked.kind_eq (hb : Checked b) : ∃ k, SlottedPage.kind b = .ok k := by
  obtain ⟨code, k, hcode, hk⟩ := hb.kind
  refine ⟨k, ?_⟩
  rw [SlottedPage.kind, hcode, Res.ok_bind, hk]

/-- All cells of an accepted page lie inside of it. -/
theorem Checked.inside (hb : Checked b) (hcs : SlottedPage.cells b = .ok cs) {i : ℕ} {c : Bytes}
    (hi : cs[i]? = some c) : Inside b i c := by
  have hslots := hb.slots
  rw [SlottedPage.cells, getU16_eq (by decide), Res.ok_bind] at hcs
  have hlt : i < ofLe (slice b.1 6 2) := by
    have hlen := Res.length_of_mapM hcs
    rw [List.length_range] at hlen
    exact hlen ▸ (List.getElem?_eq_some_iff.1 hi).1
  refine inside_of_cellAtSlot (by omega) (Res.getElem?_of_mapM hcs ?_ hi)
  rw [List.getElem?_range hlt]

end Read

/-! ## Flipped bits -/

/-- The page with one of its bits flipped. -/
def flip (b : Page) (i : Fin PAGE_SIZE) (bit : Fin 8) : Page :=
  ⟨b.1.modify i fun byte => byte ^^^ (1 <<< UInt8.ofNat bit), (List.length_modify ..).trans b.2⟩

section Flip
variable {b b' z : Page} {i : Fin PAGE_SIZE} {bit : Fin 8}

theorem xor_shiftLeft_ne (byte : UInt8) (bit : Fin 8) : byte ^^^ (1 <<< UInt8.ofNat bit) ≠ byte := by
  have hne : (1 : UInt8) <<< UInt8.ofNat bit ≠ 0 := by
    fin_cases bit <;> decide
  intro h
  exact hne (by simpa using h)

theorem flip_ne (b : Page) (i : Fin PAGE_SIZE) (bit : Fin 8) : (flip b i bit).1 ≠ b.1 := by
  have hi : (i : ℕ) < b.1.length := by rw [b.2]; exact i.isLt
  intro h
  have hget := congrArg (fun l => l[(i : ℕ)]?) h
  rw [flip, List.getElem?_modify_eq, List.getElem?_eq_getElem hi] at hget
  exact xor_shiftLeft_ne _ bit (Option.some.inj hget)

/-- The other bytes stay. -/
theorem getElem?_flip (b : Page) (bit : Fin 8) {j : ℕ} (hj : j ≠ i) : (flip b i bit).1[j]? = b.1[j]? :=
  List.getElem?_modify_ne _ _ hj.symm

/-- The page can be put together from its checksum field and the rest. -/
theorem eq_of_zeroed (hz : write b 12 [0, 0, 0, 0] = .ok z) (hz' : write b' 12 [0, 0, 0, 0] = .ok z)
    (hslice : slice b.1 12 4 = slice b'.1 12 4) : b = b' := by
  have hfield : ∀ p : Page, write p 12 [0, 0, 0, 0] = .ok z → p.1 = blit z.1 12 (slice p.1 12 4) := by
    intro p hp
    have hlen : (slice p.1 12 4).length = 4 := length_slice_page (by decide)
    have hat : At p.1 12 (slice p.1 12 4) := by rw [At, hlen]
    rw [write_val hp, blit_blit (by rw [p.2]; decide) (by rw [hlen]; rfl), blit_of_at hat]
  refine Subtype.ext ?_
  rw [hfield b hz, hfield b' hz', hslice]

/-- **A flipped bit is noticed**: no two accepted pages differ in only one byte. -/
theorem Checked.not_flip (hb : Checked b) : ¬ Checked (flip b i bit) := by
  intro hf
  obtain ⟨z, hz, hcrc⟩ := hb.crc
  obtain ⟨z', hz', hcrc'⟩ := hf.crc
  have hlen : ∀ p : Page, 12 + ([0, 0, 0, 0] : Bytes).length ≤ p.1.length := by
    intro p
    rw [p.2]
    decide
  have hzero : ∀ j ≠ (i : ℕ), z'.1[j]? = z.1[j]? := by
    intro j hj
    rw [write_val hz, write_val hz', getElem?_blit (hlen _), getElem?_blit (hlen _),
      getElem?_flip b bit hj]
  by_cases hsame : z' = z
  · rw [hsame] at hz' hcrc'
    exact flip_ne b i bit (congrArg Subtype.val (eq_of_zeroed hz' hz (hcrc'.symm.trans hcrc)))
  · have hburst : Burst z.1 z'.1 :=
      Burst.of_byte (z'.2.trans z.2.symm) (fun h => hsame (Subtype.ext h)) hzero
    -- the flipped bit is not in the checksum field, which would be the same in both pages
    have hfield : ¬ (12 ≤ (i : ℕ) ∧ (i : ℕ) < 16) := by
      intro hi
      refine hsame (Subtype.ext (List.ext_getElem? fun j => ?_))
      by_cases hj : j = (i : ℕ)
      · have hin : 12 ≤ j ∧ j < 12 + ([0, 0, 0, 0] : Bytes).length := hj ▸ hi
        rw [write_val hz, write_val hz', getElem?_blit (hlen _), getElem?_blit (hlen _), if_pos hin,
          if_pos hin]
      · exact hzero j hj
    have hslice : slice (flip b i bit).1 12 4 = slice b.1 12 4 :=
      slice_congr fun j hj hj' => getElem?_flip b bit (by rintro rfl; exact hfield ⟨hj, hj'⟩)
    have heq : crcField z'.1 = crcField z.1 := by rw [hcrc', hslice, hcrc]
    exact crcField_burst hburst heq

end Flip

/-- **Malformed and damaged pages.**  `from_bytes` returns on every array, and what it accepts can be
    read: it has a kind, and all its cells lie inside of it.  A finished page with any bit flipped is
    refused. -/
theorem pages_checked :
    (∀ b : Page, Res.Returns (fromBytes b) ∧
      ∀ b', fromBytes b = .ok b' → b' = b ∧ (∃ k, kind b' = .ok k) ∧
        ∃ cs, cells b' = .ok cs ∧ ∀ i c, cs[i]? = some c → Inside b' i c) ∧
    ∀ (k : PageKind) (offered : List Bytes), ∃ b₀ b, new k = .ok b₀ ∧
      finish (Act.calls (offered.map insertCell) b₀).2 = .ok b ∧
      ∀ i bit, ∃ e, fromBytes (flip b i bit) = .error (.io e) := by
  constructor
  · intro b
    obtain ⟨e, he⟩ | ⟨hok, hb⟩ := fromBytes_checked b
    · rw [he]
      exact ⟨Res.returns_fail e.kind e.message, fun b' h => by cases h⟩
    · rw [hok]
      refine ⟨Res.returns_ok b, fun b' h => ?_⟩
      cases h
      obtain ⟨cs, hcs⟩ := hb.cells
      exact ⟨rfl, hb.kind_eq, cs, hcs, fun i c hi => hb.inside hcs hi⟩
  · intro k offered
    obtain ⟨b₀, hnew, hb₀⟩ := new_holds k
    obtain ⟨b, hfinish, hfrom, -⟩ := fromBytes_finish (calls_holds hb₀ offered)
    refine ⟨b₀, b, hnew, hfinish, fun i bit => ?_⟩
    obtain ⟨e, he⟩ | ⟨-, hb⟩ := fromBytes_checked b
    · rw [he] at hfrom
      cases hfrom
    · obtain hrefused | ⟨-, hflip⟩ := fromBytes_checked (flip b i bit)
      · exact hrefused
      · exact absurd hflip hb.not_flip

end SlottedPage

end NutDb
