/-
  Slotted pages (`src/page.rs`).

  A page is an array of `PAGE_SIZE` bytes: a header, a slot array that grows
  forward and cells that grow backward from the end.  `Holds b kind cells` says
  where everything stands; `insert` extends the list of cells, `finish` only
  touches the checksum, and a finished page is accepted by `fromBytes` with
  exactly the cells that were inserted (`fromBytes_finish`).
-/
import NutDb.Lib.Region
import NutDb.Crc

namespace NutDb

open Lib

def PAGE_SIZE : ℕ := 4096

/-- The arrays `[u8; PAGE_SIZE]`. -/
abbrev Page := { b : Bytes // b.length = PAGE_SIZE }

/-- An array of zeros. -/
def Page.zero : Page := ⟨List.replicate PAGE_SIZE 0, List.length_replicate⟩

namespace SlottedPage

def HEADER_SIZE : ℕ := 16
def MAGIC : Bytes := [0x4E, 0x50, 0x47, 0x31]
def VERSION : UInt8 := 1

/-- `PageKind`. -/
inductive PageKind where
  | «meta» | internal | leaf
  deriving DecidableEq, Repr

/-- `kind as u8`. -/
def PageKind.code : PageKind → UInt8
  | .meta => 1
  | .internal => 2
  | .leaf => 3

/-- `PageKind::decode`. -/
def PageKind.decode (value : UInt8) : Res PageKind :=
  if value = 1 then .ok .meta
  else if value = 2 then .ok .internal
  else if value = 3 then .ok .leaf
  else Res.fail .invalidData "page: unknown page kind"

@[simp] theorem PageKind.decode_code (k : PageKind) : PageKind.decode k.code = .ok k := by
  cases k <;> rfl

/-- The slice `bytes[o..o + n]`. -/
def read (b : Page) (o n : ℕ) : Res Bytes :=
  if o + n ≤ PAGE_SIZE then .ok (slice b.1 o n) else .error (.panic .index)

/-- `bytes[o..o + x.len()].copy_from_slice(x)`. -/
def write (b : Page) (o : ℕ) (x : Bytes) : Res Page :=
  if h : o + x.length ≤ PAGE_SIZE then
    .ok ⟨blit b.1 o x, (length_blit (by rw [b.2]; exact h)).trans b.2⟩
  else .error (.panic .index)

/-- `get_u16`. -/
def getU16 (b : Page) (o : ℕ) : Res ℕ := do
  let s ← read b o 2
  return ofLe s

/-- `put_u16`. -/
def putU16 (b : Page) (o v : ℕ) : Res Page := write b o (le 2 v)

/-- `SlottedPage::new`. -/
def new (kind : PageKind) : Res Page := do
  let b ← write Page.zero 0 MAGIC
  let b ← write b 4 [VERSION]
  let b ← write b 5 [kind.code]
  let b ← putU16 b 6 0
  let b ← putU16 b 8 HEADER_SIZE
  putU16 b 10 PAGE_SIZE

/-- `SlottedPage::insert`. -/
def insert (b : Page) (cell : Bytes) : Res Page :=
  if cell.length < 2 ^ 16 then do
    let count ← getU16 b 6
    let front ← getU16 b 8
    let back ← getU16 b 10
    if back - front < 2 + 2 + cell.length then Res.fail .writeZero "page: no free space"
    else do
      let cellAt := back - 2 - cell.length
      let b ← putU16 b cellAt cell.length
      let b ← write b (cellAt + 2) cell
      let b ← putU16 b front cellAt
      let b ← putU16 b 6 (count + 1)
      let b ← putU16 b 8 (front + 2)
      putU16 b 10 cellAt
  else Res.fail .invalidInput "page: cell too large"

/-- One turn of the loop of `cells`. -/
def cellAtSlot (b : Page) (index : ℕ) : Res Bytes := do
  let offset ← getU16 b (HEADER_SIZE + index * 2)
  if offset < HEADER_SIZE ∨ PAGE_SIZE < offset + 2 then
    Res.fail .invalidData "page: slot points outside page"
  else do
    let len ← getU16 b offset
    let start := offset + 2
    if start + len ≤ PAGE_SIZE then read b start len
    else Res.fail .invalidData "page: cell extends outside page"

/-- `SlottedPage::cells`. -/
def cells (b : Page) : Res (List Bytes) := do
  let count ← getU16 b 6
  (List.range count).mapM (cellAtSlot b)

/-- `SlottedPage::finish`. -/
def finish (b : Page) : Res Page := do
  let b ← write b 12 [0, 0, 0, 0]
  write b 12 (crcField b.1)

/-- `SlottedPage::from_bytes`. -/
def fromBytes (b : Page) : Res Page := do
  let magic ← read b 0 4
  if magic ≠ MAGIC then Res.fail .invalidData "page: bad magic"
  else do
    let version ← read b 4 1
    if version ≠ [VERSION] then Res.fail .invalidData "page: unsupported version"
    else do
      let code ← Res.get b.1 5
      let _ ← PageKind.decode code
      let count ← getU16 b 6
      let front ← getU16 b 8
      let back ← getU16 b 10
      if front ≠ HEADER_SIZE + count * 2 ∨ back < front ∨ PAGE_SIZE < back then
        Res.fail .invalidData "page: invalid free-space bounds"
      else do
        let stored ← read b 12 4
        let checked ← write b 12 [0, 0, 0, 0]
        if (crc32 checked.1).toNat ≠ ofLe stored then Res.fail .invalidData "page: checksum mismatch"
        else do
          let _ ← cells b
          return b

/-- `SlottedPage::kind`. -/
def kind (b : Page) : Res PageKind := do
  let code ← Res.get b.1 5
  match PageKind.decode code with
  | .ok k => .ok k
  | .error _ => .error (.panic (.expect "constructed page kind"))

/-! ## Reading and writing -/

section Basic
variable {b : Page} {o o' v : ℕ} {x y : Bytes}

theorem write_eq (h : o + x.length ≤ PAGE_SIZE) : ∃ b', write b o x = .ok b' ∧ At b'.1 o x ∧
    ∀ o' y, At b.1 o' y → (o' + y.length ≤ o ∨ o + x.length ≤ o') → At b'.1 o' y := by
  have h' : o + x.length ≤ b.1.length := by rw [b.2]; exact h
  exact ⟨_, dif_pos h, At.blit_self h', fun o' y ha hd => ha.blit_of_disjoint h' hd⟩

theorem write_val {b' : Page} (h : write b o x = .ok b') : b'.1 = blit b.1 o x := by
  unfold write at h
  split_ifs at h
  cases h
  rfl

theorem putU16_eq (h : o + 2 ≤ PAGE_SIZE) : ∃ b', putU16 b o v = .ok b' ∧ At b'.1 o (le 2 v) ∧
    ∀ o' y, At b.1 o' y → (o' + y.length ≤ o ∨ o + 2 ≤ o') → At b'.1 o' y := by
  obtain ⟨b', h1, h2, h3⟩ := write_eq (b := b) (x := le 2 v) (o := o) (by rw [length_le]; exact h)
  rw [length_le] at h3
  exact ⟨b', h1, h2, h3⟩

theorem read_of_at (ha : At b.1 o x) (h : o + x.length ≤ PAGE_SIZE) : read b o x.length = .ok x := by
  rw [read, if_pos h, ha]

theorem getU16_of_at (ha : At b.1 o (le 2 v)) (hv : v < 2 ^ 16) (h : o + 2 ≤ PAGE_SIZE) :
    getU16 b o = .ok v := by
  have := read_of_at ha (by rw [length_le]; exact h)
  rw [length_le] at this
  rw [getU16, this]
  exact congrArg Except.ok (ofLe_le_of_lt (lt_of_lt_of_le hv (by norm_num)))

theorem get_of_at {a : UInt8} (ha : At b.1 o [a]) : Res.get b.1 o = .ok a := by
  refine Res.get_of_getElem? ?_
  have h0 : (slice b.1 o 1)[0]? = some a := by rw [show slice b.1 o 1 = [a] from ha]; rfl
  simpa [slice, List.getElem?_take] using h0

end Basic

/-! ## Layout -/

/-- Bytes taken by the cells, with their length fields. -/
def used (cells : List Bytes) : ℕ := (cells.map fun c => c.length + 2).sum

@[simp] theorem used_nil : used [] = 0 := rfl

theorem used_append (l₁ l₂ : List Bytes) : used (l₁ ++ l₂) = used l₁ + used l₂ := by
  rw [used, List.map_append, List.sum_append, used, used]

theorem used_concat (cells : List Bytes) (c : Bytes) :
    used (cells ++ [c]) = used cells + (c.length + 2) := used_append cells [c]

theorem used_take_le (cells : List Bytes) (i : ℕ) : used (cells.take i) ≤ used cells := by
  conv_rhs => rw [← List.take_append_drop i cells, used_append]
  omega

/-- Where the cell `i` stands. -/
def cellOffset (cells : List Bytes) (i : ℕ) : ℕ := PAGE_SIZE - used (cells.take (i + 1))

/-- The page of the given kind with the given cells. -/
structure Holds (b : Page) (kind : PageKind) (cells : List Bytes) : Prop where
  magic : At b.1 0 MAGIC
  version : At b.1 4 [VERSION]
  kind : At b.1 5 [kind.code]
  count : At b.1 6 (le 2 cells.length)
  front : At b.1 8 (le 2 (HEADER_SIZE + cells.length * 2))
  back : At b.1 10 (le 2 (PAGE_SIZE - used cells))
  room : HEADER_SIZE + cells.length * 2 + used cells ≤ PAGE_SIZE
  slot : ∀ i c, cells[i]? = some c → At b.1 (HEADER_SIZE + i * 2) (le 2 (cellOffset cells i))
  cell : ∀ i c, cells[i]? = some c → At b.1 (cellOffset cells i) (le 2 c.length ++ c)

section Layout
variable {b : Page} {k : PageKind} {cs : List Bytes} {c : Bytes}

theorem cellOffset_concat {i : ℕ} (hi : i < cs.length) :
    cellOffset (cs ++ [c]) i = cellOffset cs i := by
  rw [cellOffset, cellOffset, List.take_append_of_le_length (by omega)]

theorem cellOffset_last : cellOffset (cs ++ [c]) cs.length = PAGE_SIZE - used (cs ++ [c]) := by
  rw [cellOffset, List.take_of_length_le (by simp)]

/-- A cell lies between the free space and the end of the page. -/
theorem cellOffset_bounds {i : ℕ} (hc : cs[i]? = some c) (hu : used cs ≤ PAGE_SIZE) :
    PAGE_SIZE - used cs ≤ cellOffset cs i ∧ cellOffset cs i + 2 + c.length ≤ PAGE_SIZE := by
  have h1 := used_take_le cs (i + 1)
  have h2 : used (cs.take (i + 1)) = used (cs.take i) + (c.length + 2) := by
    rw [List.take_add_one, hc]; exact used_concat _ _
  rw [cellOffset]
  omega

theorem new_holds (k : PageKind) : ∃ b, new k = .ok b ∧ Holds b k [] := by
  obtain ⟨b₁, e₁, a₁, f₁⟩ := write_eq (b := Page.zero) (o := 0) (x := MAGIC) (by decide)
  obtain ⟨b₂, e₂, a₂, f₂⟩ := write_eq (b := b₁) (o := 4) (x := [VERSION]) (by decide)
  obtain ⟨b₃, e₃, a₃, f₃⟩ := write_eq (b := b₂) (o := 5) (x := [k.code]) (by simp [PAGE_SIZE])
  obtain ⟨b₄, e₄, a₄, f₄⟩ := putU16_eq (b := b₃) (o := 6) (v := 0) (by decide)
  obtain ⟨b₅, e₅, a₅, f₅⟩ := putU16_eq (b := b₄) (o := 8) (v := HEADER_SIZE) (by decide)
  obtain ⟨b₆, e₆, a₆, f₆⟩ := putU16_eq (b := b₅) (o := 10) (v := PAGE_SIZE) (by decide)
  refine ⟨b₆, by simp only [new, e₁, e₂, e₃, e₄, e₅, e₆, Res.ok_bind], ?_, ?_, ?_, ?_, ?_, ?_,
    by simp [HEADER_SIZE, PAGE_SIZE], by simp, by simp⟩
  · exact f₆ _ _ (f₅ _ _ (f₄ _ _ (f₃ _ _ (f₂ _ _ a₁ (by decide)) (by simp [MAGIC])) (by decide))
      (by decide)) (by decide)
  · exact f₆ _ _ (f₅ _ _ (f₄ _ _ (f₃ _ _ a₂ (by simp)) (by decide)) (by decide)) (by decide)
  · exact f₆ _ _ (f₅ _ _ (f₄ _ _ a₃ (by simp)) (by simp)) (by simp)
  · exact f₆ _ _ (f₅ _ _ a₄ (by simp)) (by simp)
  · exact f₆ _ _ a₅ (by simp)
  · exact a₆

/-- **`insert` adds a cell exactly when there is room for it**, its slot and its length field. -/
theorem insert_holds (hb : Holds b k cs) :
    (HEADER_SIZE + (cs.length + 1) * 2 + used (cs ++ [c]) ≤ PAGE_SIZE ∧
      ∃ b', insert b c = .ok b' ∧ Holds b' k (cs ++ [c])) ∨
    (PAGE_SIZE < HEADER_SIZE + (cs.length + 1) * 2 + used (cs ++ [c]) ∧
      (insert b c = Res.fail .invalidInput "page: cell too large" ∨
        insert b c = Res.fail .writeZero "page: no free space")) := by
  have hroom := hb.room
  rw [used_concat]
  have hP : PAGE_SIZE = 4096 := rfl
  have hH : HEADER_SIZE = 16 := rfl
  have hcount := getU16_of_at hb.count (by omega) (by omega)
  have hfront := getU16_of_at hb.front (by omega) (by omega)
  have hback := getU16_of_at hb.back (by omega) (by omega)
  by_cases hlen : c.length < 2 ^ 16
  swap
  · exact Or.inr ⟨by omega, Or.inl (by rw [insert, if_neg hlen])⟩
  by_cases hfit : PAGE_SIZE - used cs - (HEADER_SIZE + cs.length * 2) < 2 + 2 + c.length
  · refine Or.inr ⟨by omega, Or.inr ?_⟩
    simp only [insert, if_pos hlen, hcount, hfront, hback, Res.ok_bind, if_pos hfit]
  refine Or.inl ⟨by omega, ?_⟩
  obtain ⟨at', hat⟩ : ∃ a, a = PAGE_SIZE - used cs - 2 - c.length := ⟨_, rfl⟩
  obtain ⟨front, hfr⟩ : ∃ f, f = HEADER_SIZE + cs.length * 2 := ⟨_, rfl⟩
  rw [← hfr] at hfront hfit
  -- the six writes, and what each of them leaves alone
  obtain ⟨b₁, e₁, a₁, f₁⟩ := putU16_eq (b := b) (o := at') (v := c.length) (by omega)
  obtain ⟨b₂, e₂, a₂, f₂⟩ := write_eq (b := b₁) (o := at' + 2) (x := c) (by omega)
  obtain ⟨b₃, e₃, a₃, f₃⟩ := putU16_eq (b := b₂) (o := front) (v := at') (by omega)
  obtain ⟨b₄, e₄, a₄, f₄⟩ := putU16_eq (b := b₃) (o := 6) (v := cs.length + 1) (by omega)
  obtain ⟨b₅, e₅, a₅, f₅⟩ := putU16_eq (b := b₄) (o := 8) (v := front + 2) (by omega)
  obtain ⟨b₆, e₆, a₆, f₆⟩ := putU16_eq (b := b₅) (o := 10) (v := at') (by omega)
  have hheader : ∀ o y, At b.1 o y → o + y.length ≤ 6 → At b₆.1 o y := fun o y ha ho =>
    f₆ _ _ (f₅ _ _ (f₄ _ _ (f₃ _ _ (f₂ _ _ (f₁ _ _ ha (by omega)) (by omega)) (by omega))
      (by omega)) (by omega)) (by omega)
  have hslot : ∀ o y, At b.1 o y → HEADER_SIZE ≤ o → o + y.length ≤ front → At b₆.1 o y :=
    fun o y ha h1 h2 => f₆ _ _ (f₅ _ _ (f₄ _ _ (f₃ _ _ (f₂ _ _ (f₁ _ _ ha (by omega))
      (by omega)) (by omega)) (by omega)) (by omega)) (by omega)
  have hcell : ∀ o y, At b.1 o y → PAGE_SIZE - used cs ≤ o → At b₆.1 o y :=
    fun o y ha h1 => f₆ _ _ (f₅ _ _ (f₄ _ _ (f₃ _ _ (f₂ _ _ (f₁ _ _ ha (by omega)) (by omega))
      (by omega)) (by omega)) (by omega)) (by omega)
  have hback' : PAGE_SIZE - used (cs ++ [c]) = at' := by rw [used_concat]; omega
  refine ⟨b₆, ?_, hheader _ _ hb.magic (by decide), hheader _ _ hb.version (by simp),
    hheader _ _ hb.kind (by simp), ?_, ?_, ?_, ?_, fun i d hd => ?_, fun i d hd => ?_⟩
  · simp only [insert, if_pos hlen, hcount, hfront, hback, Res.ok_bind, if_neg hfit, ← hat, e₁, e₂, e₃,
      e₄, e₅, e₆]
  · rw [List.length_append, List.length_singleton]
    exact f₆ _ _ (f₅ _ _ a₄ (by simp)) (by simp)
  · rw [List.length_append, List.length_singleton,
      show HEADER_SIZE + (cs.length + 1) * 2 = front + 2 by omega]
    exact f₆ _ _ a₅ (by simp)
  · rw [hback']; exact a₆
  · rw [List.length_append, List.length_singleton, used_concat]; omega
  · rcases Nat.lt_or_ge i cs.length with hi | hi
    · rw [List.getElem?_append_left hi] at hd
      rw [cellOffset_concat hi]
      exact hslot _ _ (hb.slot i d hd) (by omega) (by rw [length_le]; omega)
    · obtain rfl : i = cs.length := by
        have := (List.getElem?_eq_some_iff.1 hd).1
        simp at this; omega
      rw [cellOffset_last, hback', ← hfr]
      exact f₆ _ _ (f₅ _ _ (f₄ _ _ a₃ (by rw [length_le]; omega)) (by rw [length_le]; omega))
        (by rw [length_le]; omega)
  · rcases Nat.lt_or_ge i cs.length with hi | hi
    · rw [List.getElem?_append_left hi] at hd
      rw [cellOffset_concat hi]
      exact hcell _ _ (hb.cell i d hd) (cellOffset_bounds hd (by omega)).1
    · obtain rfl : i = cs.length := by
        have := (List.getElem?_eq_some_iff.1 hd).1
        simp at this; omega
      rw [List.getElem?_append_right le_rfl, Nat.sub_self] at hd
      cases hd
      rw [cellOffset_last, hback', At.append_iff, length_le]
      constructor
      · exact f₆ _ _ (f₅ _ _ (f₄ _ _ (f₃ _ _ (f₂ _ _ a₁ (by simp)) (by rw [length_le]; omega))
          (by rw [length_le]; omega)) (by rw [length_le]; omega)) (by rw [length_le]; omega)
      · exact f₆ _ _ (f₅ _ _ (f₄ _ _ (f₃ _ _ a₂ (by omega)) (by omega)) (by omega)) (by omega)

theorem cellAtSlot_eq (hb : Holds b k cs) {i : ℕ} (hc : cs[i]? = some c) :
    cellAtSlot b i = .ok c := by
  have hroom := hb.room
  have hP : PAGE_SIZE = 4096 := rfl
  have hH : HEADER_SIZE = 16 := rfl
  have hi : i < cs.length := (List.getElem?_eq_some_iff.1 hc).1
  obtain ⟨h1, h2⟩ := cellOffset_bounds hc (by omega)
  have hslot := getU16_of_at (hb.slot i c hc) (by omega) (by omega)
  obtain ⟨hl, hbody⟩ := At.append_iff.1 (hb.cell i c hc)
  rw [length_le] at hbody
  have hlen := getU16_of_at hl (by omega) (by omega)
  have hread := read_of_at hbody (by omega)
  simp only [cellAtSlot, hslot, Res.ok_bind, hlen]
  rw [if_neg (by omega), if_pos (by omega), hread]

/-- **`cells` returns the cells that were inserted**, in order. -/
theorem cells_eq (hb : Holds b k cs) : cells b = .ok cs := by
  have hroom := hb.room
  have hP : PAGE_SIZE = 4096 := rfl
  have hcount := getU16_of_at hb.count (by omega) (by omega)
  have hloop : ∀ n ≤ cs.length, (List.range n).mapM (cellAtSlot b) = (.ok (cs.take n) : Res _) := by
    intro n hn
    induction n with
    | zero => simp
    | succ n ih =>
      have hget : cs[n]? = some cs[n] := List.getElem?_eq_getElem (by omega)
      rw [List.range_succ, List.mapM_append, ih (by omega), List.mapM_cons, cellAtSlot_eq hb hget,
        List.take_add_one, hget]
      rfl
  rw [cells, hcount, Res.ok_bind, hloop cs.length le_rfl, List.take_length]

/-- A finished page holds the same cells, and its checksum field is that of the page with the
    field zeroed. -/
theorem finish_holds (hb : Holds b k cs) :
    ∃ b', finish b = .ok b' ∧ Holds b' k cs ∧
      ∃ z, write b' 12 [0, 0, 0, 0] = .ok z ∧ At b'.1 12 (crcField z.1) := by
  have hroom := hb.room
  have hP : PAGE_SIZE = 4096 := rfl
  have hH : HEADER_SIZE = 16 := rfl
  have hl : ∀ z : Page, (crcField z.1).length = 4 := fun z => length_le 4 _
  obtain ⟨z, ez, az, fz⟩ := write_eq (b := b) (o := 12) (x := [0, 0, 0, 0]) (by decide)
  obtain ⟨b', eb, ab, fb⟩ := write_eq (b := z) (o := 12) (x := crcField z.1) (by rw [hl]; decide)
  obtain ⟨w, ew, -, -⟩ := write_eq (b := b') (o := 12) (x := [0, 0, 0, 0]) (by decide)
  have hw : w = z := by
    have h4 : 12 + (crcField z.1).length ≤ z.1.length := by rw [z.2, hl]; decide
    refine Subtype.ext ?_
    rw [write_val ew, write_val eb, blit_blit (y := [0, 0, 0, 0]) h4 (hl z), blit_of_at az]
  have hat : ∀ o y, At b.1 o y → (o + y.length ≤ 12 ∨ 16 ≤ o) → At b'.1 o y :=
    fun o y ha hd => fb _ _ (fz _ _ ha hd) (by rw [hl]; exact hd)
  refine ⟨b', by rw [finish, ez, Res.ok_bind, eb], ?_, z, hw ▸ ew, ab⟩
  refine ⟨hat _ _ hb.magic (by decide), hat _ _ hb.version (by simp), hat _ _ hb.kind (by simp),
    hat _ _ hb.count (by simp), hat _ _ hb.front (by simp), hat _ _ hb.back (by simp), hb.room,
    fun i c hc => hat _ _ (hb.slot i c hc) (by omega), fun i c hc => hat _ _ (hb.cell i c hc) ?_⟩
  have := (cellOffset_bounds hc (by omega)).1
  omega

/-- **Round trip**: `from_bytes` accepts a finished page. -/
theorem fromBytes_finish (hb : Holds b k cs) :
    ∃ b', finish b = .ok b' ∧ fromBytes b' = .ok b' ∧ kind b' = .ok k ∧ cells b' = .ok cs := by
  obtain ⟨b', hf, hb', z, hz, hcrc⟩ := finish_holds hb
  have hroom := hb.room
  have hP : PAGE_SIZE = 4096 := rfl
  have hH : HEADER_SIZE = 16 := rfl
  have hcode := get_of_at hb'.kind
  have hl : (crcField z.1).length = 4 := length_le 4 _
  refine ⟨b', hf, ?_, ?_, cells_eq hb'⟩
  · have h1 := read_of_at hb'.magic (by decide)
    have h2 := read_of_at hb'.version (by simp [hP])
    have h3 := getU16_of_at hb'.count (by omega) (by omega)
    have h4 := getU16_of_at hb'.front (by omega) (by omega)
    have h5 := getU16_of_at hb'.back (by omega) (by omega)
    have h6 := read_of_at hcrc (by rw [hl, hP]; omega)
    rw [hl] at h6
    simp only [MAGIC, List.length_cons, List.length_nil] at h1
    simp only [List.length_cons, List.length_nil] at h2
    simp only [fromBytes, h1, Res.ok_bind, MAGIC, ne_eq, not_true_eq_false, if_false, h2, hcode,
      PageKind.decode_code, h3, h4, h5]
    have hbounds : ¬ (PAGE_SIZE - used cs < HEADER_SIZE + cs.length * 2 ∨
        PAGE_SIZE < PAGE_SIZE - used cs) := by omega
    rw [if_neg (by rw [false_or]; exact hbounds)]
    simp only [h6, hz, Res.ok_bind, ofLe_crcField, not_true_eq_false, if_false, cells_eq hb',
      Res.pure_eq]
  · simp only [kind, hcode, Res.ok_bind, PageKind.decode_code]

end Layout

end SlottedPage

end NutDb
