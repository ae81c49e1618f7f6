/-
  Runs of the pager (`src/pager.rs`).

  A run is a sequence of calls on a pager that has been opened on a file of whole
  pages, with any capacity.  `Op.onArray` is what each call means for a plain
  array of pages: there is no cache and no file, and nothing to flush.  The
  pager gives the same answers (`refines_array`), and after a flush the array
  is all that is in the file.
-/
import NutDb.Pager

namespace NutDb

open Lib

namespace Pager

/-- The calls of a pager. -/
inductive Op where
  | allocate
  | write (id : ℕ) (bytes : Page)
  | read (id : ℕ)
  | flush

/-- What a call returns. -/
inductive Answer where
  | id (id : ℕ)
  | page (bytes : Page)
  | unit

namespace Op

/-- A call of the pager. -/
def run : Op → Act Pager Answer
  | allocate => do
    let id ← Pager.allocate
    return .id id
  | write id bytes => do
    Pager.write id bytes
    return .unit
  | read id => do
    let page ← Pager.read id
    return .page page
  | flush => do
    Pager.flush
    return .unit

/-- The call on a growable array of pages. -/
def onArray : Op → Act (List Page) Answer
  | allocate => do
    let id ← Act.gets List.length
    Act.modify fun arr => arr ++ [Page.zero]
    return .id id
  | write id bytes => do
    let size ← Act.gets List.length
    if id > size then Act.fail .invalidInput "pager: page id skips allocation"
    else do
      Act.modify fun arr => putPage arr id bytes
      return .unit
  | read id => do
    let page ← Act.gets fun arr => arr[id]?
    match page with
    | none => Act.fail .notFound "pager: page not found"
    | some page => return .page page
  | flush => return .unit

end Op

/-- No flush of the run has failed: there was no I/O error. -/
def Flushes (ops : List Op) (results : List (Res Answer)) : Prop :=
  ∀ p ∈ ops.zip results, p.1 = .flush → p.2 = .ok .unit

/-- The pages of a file of whole pages. -/
def pagesOf (file : Bytes) : List Page :=
  List.ofFn fun i : Fin (file.length / PAGE_SIZE) =>
    ⟨slice file (i * PAGE_SIZE) PAGE_SIZE, length_slice (by
      have hi := Nat.mul_le_mul_right PAGE_SIZE (Nat.succ_le_of_lt i.isLt)
      rw [Nat.succ_mul] at hi
      exact hi.trans (Nat.div_mul_le_self _ _))⟩

section Runs
variable {base file : Bytes} {p p' : Pager} {arr : List Page} {capacity : ℕ} {op : Op}

theorem length_pagesOf (file : Bytes) : (pagesOf file).length = file.length / PAGE_SIZE :=
  List.length_ofFn

theorem at_of_pagesOf {id : ℕ} {a : Page} (ha : (pagesOf file)[id]? = some a) :
    At file (id * PAGE_SIZE) a.1 := by
  obtain ⟨hid, rfl⟩ := List.getElem?_eq_some_iff.1 ha
  simp only [pagesOf, List.getElem_ofFn]
  unfold At
  rw [length_slice]
  rw [length_pagesOf] at hid
  have hi := Nat.mul_le_mul_right PAGE_SIZE (Nat.succ_le_of_lt hid)
  rw [Nat.succ_mul] at hi
  exact hi.trans (Nat.div_mul_le_self _ _)

/-- A file is the concatenation of its pages. -/
theorem flatMap_pagesOf (h : file.length % PAGE_SIZE = 0) : (pagesOf file).flatMap Subtype.val = file := by
  refine (eq_flatMap_of_at Subtype.val (fun a => a.2) ?_ fun i a ha => at_of_pagesOf ha).symm
  rw [length_pagesOf, Nat.div_mul_cancel (Nat.dvd_of_mod_eq_zero h)]

/-- **Opening** a file of whole pages. -/
theorem openInner_spec (hopen : openInner file capacity = .ok p) :
    Rep file p (pagesOf file) ∧ p.pages = (pagesOf file).length ∧ p.capacity = capacity ∧
      (pagesOf file).flatMap Subtype.val = file := by
  unfold openInner at hopen
  split_ifs at hopen with h1 h2
  · cases hopen
  · cases hopen
  · cases hopen
    refine ⟨⟨Nat.pos_of_ne_zero h1, Nat.zero_le _, fun id c hc => (nomatch hc), fun id a ha =>
      Or.inr (at_of_pagesOf ha), rfl⟩, (length_pagesOf file).symm, rfl, flatMap_pagesOf (not_not.1 h2)⟩

/-- The concatenation of pages determines them. -/
theorem flatMap_pages_injective : ∀ {arr arr' : List Page},
    arr.flatMap Subtype.val = arr'.flatMap Subtype.val → arr = arr'
  | [], [], _ => rfl
  | [], b :: arr', h => absurd (List.append_eq_nil_iff.1 h.symm).1 (Page.ne_nil b)
  | a :: arr, [], h => absurd (List.append_eq_nil_iff.1 h).1 (Page.ne_nil a)
  | a :: arr, b :: arr', h => by
    obtain ⟨h1, h2⟩ := List.append_inj h (a.2.trans b.2.symm)
    rw [Subtype.ext h1, flatMap_pages_injective h2]

theorem length_flatMap_pages (arr : List Page) :
    (arr.flatMap Subtype.val).length = arr.length * PAGE_SIZE := by
  induction arr with
  | nil => simp
  | cons a arr ih => rw [List.flatMap_cons, List.length_append, ih, a.2, List.length_cons, Nat.succ_mul,
      Nat.add_comm]

/-! ## One call -/

/-- What a pager has in common with an array while it is in use. -/
structure Stands (base : Bytes) (capacity : ℕ) (p : Pager) (arr : List Page) : Prop where
  rep : Rep base p arr
  pages : p.pages = arr.length
  capacity : p.capacity = capacity

theorem evictIfNeeded_capacity : Act.Preserves (fun p => p.capacity = capacity) evictIfNeeded := by
  refine Act.preserves_bind (Act.preserves_gets _) fun p => Act.preserves_ite (Act.preserves_pure _) ?_
  split
  · exact Act.preserves_lift _
  · refine Act.preserves_modify fun q hq => ?_
    exact (flushOne_capacity q _).1.trans hq

theorem write_capacity (id : ℕ) (bytes : Page) :
    Act.Preserves (fun p => p.capacity = capacity) (write id bytes) := by
  refine Act.preserves_bind (Act.preserves_gets _) fun p => Act.preserves_ite (Act.preserves_fail _ _) ?_
  refine Act.preserves_bind (Act.preserves_modify fun q hq => ?_) fun _ => ?_
  · split_ifs
    · exact hq
    · exact hq
  · refine Act.preserves_bind ?_ fun _ => Act.preserves_modify fun q hq => hq
    exact Act.preserves_bind (Act.preserves_gets _) fun p =>
      Act.preserves_ite (Act.preserves_pure _) evictIfNeeded_capacity

theorem read_capacity (id : ℕ) : Act.Preserves (fun p => p.capacity = capacity) (read id) := by
  refine Act.preserves_bind ?_ fun _ => Act.preserves_bind (Act.preserves_gets _) fun page => ?_
  · refine Act.preserves_bind (Act.preserves_gets _) fun p => Act.preserves_ite (Act.preserves_fail _ _)
      (Act.preserves_ite (Act.preserves_pure _) (Act.preserves_bind evictIfNeeded_capacity fun _ => ?_))
    exact Act.preserves_bind (Act.preserves_gets _) fun bytes =>
      Act.preserves_bind (Act.preserves_lift _) fun bytes => Act.preserves_modify fun q hq => hq
  · cases page with
    | none => exact Act.preserves_lift _
    | some page => exact Act.preserves_bind (Act.preserves_modify fun q hq => hq) fun _ =>
        Act.preserves_pure _

theorem foldl_flushOne_capacity (ids : List ℕ) (p : Pager) :
    (ids.foldl flushOne p).capacity = p.capacity := by
  induction ids generalizing p with
  | nil => rfl
  | cons id ids ih => exact (ih _).trans (flushOne_capacity p id).1

theorem flush_capacity : Act.Preserves (fun p => p.capacity = capacity) flush := by
  refine Act.preserves_bind (Act.preserves_modify fun q hq => ?_) fun _ =>
    Act.preserves_bind (Act.preserves_gets _) fun p =>
      Act.preserves_ite (Act.preserves_modify fun q hq => hq) (Act.preserves_fail _ _)
  exact (foldl_flushOne_capacity _ q).trans hq

theorem Op.run_capacity (op : Op) : Act.Preserves (fun p => p.capacity = capacity) op.run := by
  cases op with
  | allocate =>
    refine Act.preserves_bind ?_ fun _ => Act.preserves_pure _
    refine Act.preserves_bind (Act.preserves_gets _) fun id =>
      Act.preserves_bind (Act.preserves_modify fun q hq => hq) fun _ => ?_
    exact Act.preserves_bind (write_capacity _ _) fun _ => Act.preserves_pure _
  | write id bytes => exact Act.preserves_bind (write_capacity _ _) fun _ => Act.preserves_pure _
  | read id => exact Act.preserves_bind (read_capacity _) fun _ => Act.preserves_pure _
  | flush => exact Act.preserves_bind flush_capacity fun _ => Act.preserves_pure _

/-- A write that skips a page is refused. -/
theorem Op.write_beyond {id : ℕ} (h : id > p.pages) (bytes : Page) :
    (Op.write id bytes).run.run p = (Res.fail .invalidInput "pager: page id skips allocation", p) := by
  simp only [Op.run, Pager.write, Act.run_bind, Act.run_gets, if_pos h, Act.run_fail]
  rfl

/-- A page that there is not is not read. -/
theorem Op.read_beyond {id : ℕ} (h : id ≥ p.pages) :
    (Op.read id).run.run p = (Res.fail .notFound "pager: page not found", p) := by
  simp only [Op.run, Pager.read, Pager.ensureLoaded, Act.run_bind, Act.run_gets, if_pos h, Act.run_fail]
  rfl

/-- A flush that succeeds has set a valid length. -/
theorem Stands.flush_fits (h : Stands base capacity p arr) (hok : (Op.flush.run.run p).1 = .ok .unit) :
    arr.length * PAGE_SIZE < 2 ^ 63 := by
  by_contra hsize
  have hpg := (h.rep.foldl_flushOne ((p.cache.filter fun e => e.2.dirty).map Prod.fst)).2.1
  simp only [Op.run, Pager.flush, Act.run_bind, Act.run_modify, Act.run_gets, hpg, h.pages,
    if_neg hsize, Act.run_fail, Res.fail, reduceCtorEq] at hok

/-- A flush that succeeds leaves the pages in the file. -/
theorem Stands.flush (h : Stands base capacity p arr) (hok : (Op.flush.run.run p).1 = .ok .unit) :
    Stands base capacity (Op.flush.run.run p).2 arr ∧
      (Op.flush.run.run p).2.file = arr.flatMap Subtype.val := by
  obtain ⟨p', hrun, hr, hp, hfile, -⟩ := h.rep.flush h.pages (h.flush_fits hok)
  have hres : Op.flush.run.run p = (.ok .unit, p') := Act.run_bind_ok hrun
  have hcap := Op.run_capacity .flush p h.capacity
  rw [hres] at hcap ⊢
  exact ⟨⟨hr, hp, hcap⟩, hfile⟩

/-- **One call** gives the answer of the array. -/
theorem Stands.step (h : Stands base capacity p arr) (op : Op)
    (hok : op = .flush → (op.run.run p).1 = .ok .unit) :
    (op.run.run p).1 = (op.onArray.run arr).1 ∧
      Stands base capacity (op.run.run p).2 (op.onArray.run arr).2 := by
  have hcap := Op.run_capacity op p h.capacity
  cases op with
  | allocate =>
    obtain ⟨p', hrun, hr, hp⟩ := h.rep.allocate h.pages
    have hres : Op.allocate.run.run p = (.ok (.id arr.length), p') := Act.run_bind_ok hrun
    rw [hres] at hcap ⊢
    exact ⟨rfl, hr, hp, hcap⟩
  | write id bytes =>
    by_cases hid : id ≤ arr.length
    · obtain ⟨p', hrun, hr, hp⟩ := h.rep.write id bytes hid (h.pages ▸ hid)
      have hres : (Op.write id bytes).run.run p = (.ok .unit, p') := Act.run_bind_ok hrun
      have harr : (Op.write id bytes).onArray.run arr = (.ok .unit, putPage arr id bytes) := by
        simp only [Op.onArray, Act.run_bind, Act.run_gets, if_neg (not_lt.2 hid), Act.run_modify,
          Act.run_pure]
      rw [hres] at hcap ⊢
      rw [harr]
      exact ⟨rfl, hr, by rw [hp, length_putPage hid, h.pages], hcap⟩
    · have hgt : id > p.pages := by rw [h.pages]; omega
      have harr : (Op.write id bytes).onArray.run arr =
          (Res.fail .invalidInput "pager: page id skips allocation", arr) := by
        simp only [Op.onArray, Act.run_bind, Act.run_gets, if_pos (not_le.1 hid), Act.run_fail]
      rw [Op.write_beyond hgt, harr]
      exact ⟨rfl, h⟩
  | read id =>
    rcases ha : arr[id]? with _ | a
    · have hge : id ≥ p.pages := by rw [h.pages]; exact List.getElem?_eq_none_iff.1 ha
      have harr : (Op.read id).onArray.run arr =
          (Res.fail .notFound "pager: page not found", arr) := by
        simp only [Op.onArray, Act.run_bind, Act.run_gets, ha, Act.run_fail]
      rw [Op.read_beyond hge, harr]
      exact ⟨rfl, h⟩
    · obtain ⟨p', hrun, hr, hp⟩ := h.rep.read id ha h.pages
      have hres : (Op.read id).run.run p = (.ok (.page a), p') := Act.run_bind_ok hrun
      have harr : (Op.read id).onArray.run arr = (.ok (.page a), arr) := by
        simp only [Op.onArray, Act.run_bind, Act.run_gets, ha, Act.run_pure]
      rw [hres] at hcap ⊢
      rw [harr]
      exact ⟨rfl, hr, hp.trans h.pages, hcap⟩
  | flush => exact ⟨hok rfl, (h.flush (hok rfl)).1⟩

/-! ## Runs -/

/-- **A run** gives the answers of the array. -/
theorem Stands.calls (h : Stands base capacity p arr) (ops : List Op)
    (hio : Flushes ops (Act.calls (ops.map Op.run) p).1) :
    (Act.calls (ops.map Op.run) p).1 = (Act.calls (ops.map Op.onArray) arr).1 ∧
      Stands base capacity (Act.calls (ops.map Op.run) p).2 (Act.calls (ops.map Op.onArray) arr).2 := by
  induction ops generalizing p arr with
  | nil => exact ⟨rfl, h⟩
  | cons op ops ih =>
    obtain ⟨h1, h2⟩ := h.step op fun hop => hio _ List.mem_cons_self hop
    obtain ⟨h3, h4⟩ := ih h2 fun e he => hio e (List.mem_cons_of_mem _ he)
    exact ⟨List.cons_eq_cons.2 ⟨h1, h3⟩, h4⟩

/-- **The pager refines an array of pages**: in every run without I/O errors it answers as the array
    does, it keeps to its capacity, and a flush leaves the array in the file, from which a pager of
    any other capacity goes on with the same array. -/
theorem refines_array (hopen : openInner file capacity = .ok p) (ops : List Op)
    (hio : Flushes ops (Act.calls (ops.map Op.run) p).1) :
    let run := Act.calls (ops.map Op.run) p
    let spec := Act.calls (ops.map Op.onArray) (pagesOf file)
    run.1 = spec.1 ∧ run.2.pages = spec.2.length ∧ run.2.cache.length ≤ capacity ∧
      ∀ p', Op.flush.run.run run.2 = (.ok .unit, p') → p'.file = spec.2.flatMap Subtype.val ∧
        ∀ capacity', 0 < capacity' → ∃ q, openInner p'.file capacity' = .ok q ∧
          q.pages = spec.2.length ∧ ∀ more : List Op,
            Flushes more (Act.calls (more.map Op.run) q).1 →
              (Act.calls (more.map Op.run) q).1 = (Act.calls (more.map Op.onArray) spec.2).1 := by
  obtain ⟨hr, hp, hcap, -⟩ := openInner_spec hopen
  obtain ⟨h1, h2⟩ := (Stands.mk hr hp hcap).calls ops hio
  refine ⟨h1, h2.pages, h2.rep.bounded.trans_eq h2.capacity, fun p' hflush => ?_⟩
  have hfile := (h2.flush (by rw [hflush])).2
  rw [hflush] at hfile
  refine ⟨hfile, fun capacity' hpos => ?_⟩
  have hwhole : ¬ p'.file.length % PAGE_SIZE ≠ 0 := by
    rw [hfile, length_flatMap_pages, Nat.mul_mod_left]
    exact not_not.2 rfl
  have hreopen : openInner p'.file capacity' =
      .ok { file := p'.file, capacity := capacity', pages := p'.file.length / PAGE_SIZE } := by
    rw [openInner, if_neg hpos.ne', if_neg hwhole]
  obtain ⟨hr', hp', hcap', hpages⟩ := openInner_spec hreopen
  rw [flatMap_pages_injective (hpages.trans hfile)] at hr' hp'
  exact ⟨_, hreopen, hp', fun more hmore => ((Stands.mk hr' hp' hcap').calls more hmore).1⟩

/-- In a run with a cache for one page, the first page is read back from the file. -/
theorem refines_array_evicted : ∃ p, openInner [] 1 = .ok p ∧
    Flushes [.allocate, .write 0 Page.zero, .allocate, .read 0]
      (Act.calls ([Op.allocate, .write 0 Page.zero, .allocate, .read 0].map Op.run) p).1 ∧
    (Act.calls ([Op.allocate, .write 0 Page.zero, .allocate, .read 0].map Op.run) p).1 =
      [.ok (.id 0), .ok .unit, .ok (.id 1), .ok (.page Page.zero)] := by
  have hopen : openInner [] 1 = .ok { file := [], capacity := 1, pages := 0 } := rfl
  have hio : ∀ results, Flushes [.allocate, .write 0 Page.zero, .allocate, .read 0] results := by
    rintro results ⟨op, r⟩ hmem rfl
    have hop := (List.of_mem_zip hmem).1
    simp at hop
  refine ⟨_, hopen, hio _, ?_⟩
  rw [(refines_array hopen _ (hio _)).1]
  rfl

end Runs

end Pager

end NutDb
