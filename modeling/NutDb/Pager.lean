/-
  Page I/O with a bounded least-recently-used cache (`src/pager.rs`).

  The pager keeps some pages in a cache and writes dirty ones back when they are
  evicted or flushed.  `Rep base p arr` relates it to a plain array of pages:
  every page of the array is in the file unless it is dirty in the cache.  Under
  this relation reads and writes are those of the array, and after a flush the
  file is the concatenation of the pages.

  `issued` records the file operations in the order in which the pager issued
  them, for the crashes that can come between them.  The order in which a hash
  map is traversed is unspecified; here it is that of the list.  It matters
  neither for eviction (no two cached pages were touched at the same time) nor
  for a flush (which writes distinct pages).
-/
import NutDb.Lib.Act
import NutDb.Lib.File
import NutDb.Lib.Sorted
import NutDb.Page

namespace NutDb

open Lib

/-- `CachedPage`. -/
structure CachedPage where
  bytes : Page
  dirty : Bool
  touched : ℕ

/-- `Pager`. -/
structure Pager where
  file : Bytes
  capacity : ℕ
  clock : ℕ := 0
  pages : ℕ
  cache : List (ℕ × CachedPage) := []
  issued : List FileOp := []

namespace Pager

/-- `Pager::open_inner`, on a file with the given content. -/
def openInner (file : Bytes) (capacity : ℕ) : Res Pager :=
  if capacity = 0 then Res.fail .invalidInput "pager: cache capacity must be positive"
  else if file.length % PAGE_SIZE ≠ 0 then
    Res.fail .invalidData "pager: file ends in a partial page"
  else .ok { file := file, capacity := capacity, pages := file.length / PAGE_SIZE }

/-- `flush_one`. -/
def flushOne (p : Pager) (id : ℕ) : Pager :=
  match p.cache.lookup id with
  | none => p
  | some page =>
    if page.dirty then
      { p with
        file := writeAt p.file (id * PAGE_SIZE) page.bytes.1
        issued := p.issued ++ [.write (id * PAGE_SIZE) page.bytes.1]
        cache := updateKey id { page with dirty := false } p.cache }
    else p

/-- `evict_if_needed`. -/
def evictIfNeeded : Act Pager Unit := do
  let p ← Act.gets id
  if p.cache.length < p.capacity then pure ()
  else
    match p.cache.argmin fun e => e.2.touched with
    | none => Act.lift (.error (.panic (.expect "non-empty cache")))
    | some (victim, _) => Act.modify fun p =>
      let p := p.flushOne victim
      { p with cache := eraseKey victim p.cache }

/-- `cache.insert`. -/
def insertCached (id : ℕ) (bytes : Page) (dirty : Bool) (p : Pager) : Pager :=
  { p with cache := (id, ⟨bytes, dirty, p.clock⟩) :: eraseKey id p.cache }

/-- Make room for a page that is not in the cache. -/
def ensureRoom (id : ℕ) : Act Pager Unit := do
  let p ← Act.gets fun p => p
  if (p.cache.lookup id).isSome then pure () else evictIfNeeded

/-- `Pager::write`. -/
def write (id : ℕ) (bytes : Page) : Act Pager Unit := do
  let p ← Act.gets fun p => p
  if id > p.pages then Act.fail .invalidInput "pager: page id skips allocation"
  else do
    Act.modify fun p => if id = p.pages then { p with pages := p.pages + 1 } else p
    ensureRoom id
    Act.modify fun p => insertCached id bytes true { p with clock := p.clock + 1 }

/-- `Pager::allocate`. -/
def allocate : Act Pager ℕ := do
  let id ← Act.gets pages
  Act.modify fun p => { p with pages := p.pages + 1 }
  write id Page.zero
  return id

/-- `read_exact` of a page of the file. -/
def readPage (file : Bytes) (id : ℕ) : Res Page :=
  if h : (slice file (id * PAGE_SIZE) PAGE_SIZE).length = PAGE_SIZE then .ok ⟨_, h⟩
  else Res.fail .unexpectedEof "failed to fill whole buffer"

/-- `ensure_loaded`. -/
def ensureLoaded (id : ℕ) : Act Pager Unit := do
  let p ← Act.gets fun p => p
  if id ≥ p.pages then Act.fail .notFound "pager: page not found"
  else if (p.cache.lookup id).isSome then pure ()
  else do
    evictIfNeeded
    let bytes ← Act.gets fun p => readPage p.file id
    let bytes ← Act.lift bytes
    Act.modify (insertCached id bytes false)

/-- `Pager::read`. -/
def read (id : ℕ) : Act Pager Page := do
  ensureLoaded id
  let page ← Act.gets fun p => p.cache.lookup id
  match page with
  | none => Act.lift (.error (.panic (.expect "loaded page")))
  | some page => do
    Act.modify fun p => { p with
      clock := p.clock + 1
      cache := updateKey id { page with touched := p.clock + 1 } p.cache }
    return page.bytes

/-- `flush`: write the dirty pages, set the length (which fails on what is not a valid file
    size) and sync. -/
def flush : Act Pager Unit := do
  Act.modify fun p =>
    let dirty := (p.cache.filter fun e => e.2.dirty).map Prod.fst
    dirty.foldl flushOne p
  let p ← Act.gets fun p => p
  let size := p.pages * PAGE_SIZE
  if size < 2 ^ 63 then
    Act.modify fun p => { p with
      file := setLen p.file size
      issued := p.issued ++ [.setLen size, .sync] }
  else Act.fail .invalidInput "out of range integral type conversion attempted"

/-! ## The array of pages -/

/-- The content of a file after operations on a durable one. -/
def contentAfter (base : Bytes) (ops : List FileOp) : Bytes :=
  (ops.foldl (fun f op => op.run f) (File.settled base)).bytes

theorem contentAfter_concat (base : Bytes) (ops : List FileOp) (op : FileOp) :
    contentAfter base (ops ++ [op]) = (op.run (ops.foldl (fun f op => op.run f) (File.settled base))).bytes := by
  simp [contentAfter]

/-- The pager stands for the array `arr`: cached pages are those of the array, the others are in
    the file, and so are the cached ones that are not dirty. -/
structure Rep (base : Bytes) (p : Pager) (arr : List Page) : Prop where
  capacity_pos : 0 < p.capacity
  bounded : p.cache.length ≤ p.capacity
  cached : ∀ id c, p.cache.lookup id = some c → arr[id]? = some c.bytes
  stored : ∀ id a, arr[id]? = some a →
    (∃ c, p.cache.lookup id = some c ∧ c.dirty = true) ∨ At p.file (id * PAGE_SIZE) a.1
  traced : contentAfter base p.issued = p.file

theorem Page.ne_nil (a : Page) : a.1 ≠ [] := by
  rw [← List.length_pos_iff, a.2]; decide

/-- Writing one page of the file leaves the others alone. -/
theorem at_writeAt_page {file : Bytes} {id id' : ℕ} {a b : Page} (hne : id' ≠ id)
    (ha : At file (id' * PAGE_SIZE) a.1) :
    At (writeAt file (id * PAGE_SIZE) b.1) (id' * PAGE_SIZE) a.1 := by
  refine ha.writeAt_of_disjoint (Page.ne_nil a) ?_
  rw [a.2, b.2]
  have hP : PAGE_SIZE = 4096 := rfl
  rw [hP]
  omega

section Rep
variable {base : Bytes} {p : Pager} {arr : List Page} {id : ℕ}

theorem flushOne_capacity (p : Pager) (id : ℕ) : (p.flushOne id).capacity = p.capacity ∧
    (p.flushOne id).pages = p.pages ∧ (p.flushOne id).cache.length = p.cache.length := by
  unfold flushOne
  split
  · exact ⟨rfl, rfl, rfl⟩
  · split_ifs <;> simp [updateKey]

/-- The cache after `flush_one`: the page is clean. -/
theorem lookup_flushOne {j : ℕ} : (p.flushOne id).cache.lookup j =
    if j = id then (p.cache.lookup j).map fun c => { c with dirty := false } else p.cache.lookup j := by
  unfold flushOne
  by_cases hj : j = id
  · subst hj
    rcases hc : p.cache.lookup j with _ | c
    · simp [hc]
    · by_cases hd : c.dirty
      · simp [hd, lookup_updateKey, hc]
      · have hcc : ({ c with dirty := false } : CachedPage) = c := by
          cases c; simp only [CachedPage.mk.injEq, and_true, true_and]; simpa using hd
        simp [hd, hc, hcc]
  · rw [if_neg hj]
    split
    · rfl
    · split_ifs
      · simp [lookup_updateKey, hj]
      · rfl

theorem Rep.flushOne (hr : Rep base p arr) (id : ℕ) : Rep base (p.flushOne id) arr ∧
    ∀ a, (p.cache.lookup id).isSome → arr[id]? = some a →
      At (p.flushOne id).file (id * PAGE_SIZE) a.1 := by
  rcases hc : p.cache.lookup id with _ | c
  · have : p.flushOne id = p := by simp [Pager.flushOne, hc]
    rw [this]
    exact ⟨hr, fun a h => by simp at h⟩
  by_cases hd : c.dirty = true
  swap
  · have : p.flushOne id = p := by simp [Pager.flushOne, hc, hd]
    rw [this]
    refine ⟨hr, fun a _ ha => ?_⟩
    rcases hr.stored id a ha with ⟨c', h1, h2⟩ | h
    · rw [hc] at h1; cases h1; exact absurd h2 hd
    · exact h
  have hfile : (p.flushOne id).file = writeAt p.file (id * PAGE_SIZE) c.bytes.1 := by
    simp [Pager.flushOne, hc, hd]
  have hself : ∀ a, arr[id]? = some a → At (p.flushOne id).file (id * PAGE_SIZE) a.1 := by
    intro a ha
    rw [hr.cached id c hc] at ha
    cases ha
    rw [hfile]
    exact At.writeAt_self _ _ _
  obtain ⟨h1, -, h3⟩ := flushOne_capacity p id
  refine ⟨⟨h1 ▸ hr.capacity_pos, by rw [h1, h3]; exact hr.bounded, fun j c' hj => ?_,
    fun j a ha => ?_, ?_⟩, fun a _ => hself a⟩
  · rw [lookup_flushOne] at hj
    split_ifs at hj with hji
    · obtain ⟨c'', h4, rfl⟩ := Option.map_eq_some_iff.1 hj
      exact hr.cached j c'' h4
    · exact hr.cached j c' hj
  · by_cases hji : j = id
    · subst hji; exact Or.inr (hself a ha)
    · rcases hr.stored j a ha with ⟨c', h4, h5⟩ | h
      · exact Or.inl ⟨c', by rw [lookup_flushOne, if_neg hji, h4], h5⟩
      · rw [hfile]; exact Or.inr (at_writeAt_page hji h)
  · have hiss : (p.flushOne id).issued = p.issued ++ [.write (id * PAGE_SIZE) c.bytes.1] := by
      simp [Pager.flushOne, hc, hd]
    rw [hiss, contentAfter_concat, hfile, ← hr.traced]
    rfl

theorem Rep.evictIfNeeded (hr : Rep base p arr) :
    ∃ p', evictIfNeeded.run p = (.ok (), p') ∧ Rep base p' arr ∧ p'.cache.length < p'.capacity ∧
      p'.pages = p.pages ∧ ∀ id, p.cache.lookup id = none → p'.cache.lookup id = none := by
  by_cases hlt : p.cache.length < p.capacity
  · exact ⟨p, by simp [Pager.evictIfNeeded, Act.run_bind, hlt], hr, hlt, rfl, fun _ h => h⟩
  · have hne : p.cache ≠ [] := by
      intro h0
      have := hr.capacity_pos
      rw [h0] at hlt
      simp at hlt
      omega
    obtain ⟨⟨victim, c⟩, hv⟩ : ∃ e, p.cache.argmin (fun e => e.2.touched) = some e := by
      rcases h : p.cache.argmin (fun e => e.2.touched) with _ | e
      · exact absurd (List.argmin_eq_none.1 h) hne
      · exact ⟨e, h⟩
    have hmem : (p.cache.lookup victim).isSome := lookup_isSome_iff.2 ⟨c, List.argmin_mem hv⟩
    obtain ⟨h1, h2, h3⟩ := flushOne_capacity p victim
    obtain ⟨hr', hat⟩ := hr.flushOne victim
    have hmem' : ((p.flushOne victim).cache.lookup victim).isSome := by
      rw [lookup_flushOne, if_pos rfl]; simpa using hmem
    have hlen := length_eraseKey_lt hmem'
    refine ⟨{ p.flushOne victim with cache := eraseKey victim (p.flushOne victim).cache }, ?_,
      ⟨hr'.capacity_pos, ?_, fun j c' hj => ?_, fun j a ha => ?_, hr'.traced⟩, ?_, h2, ?_⟩
    · simp [Pager.evictIfNeeded, Act.run_bind, hlt, hv]
    · have := hr'.bounded
      simp only
      omega
    · simp only [lookup_eraseKey] at hj
      split_ifs at hj
      exact hr'.cached j c' hj
    · by_cases hjv : j = victim
      · subst hjv; exact Or.inr (hat a hmem ha)
      · rcases hr'.stored j a ha with ⟨c', h4, h5⟩ | h
        · exact Or.inl ⟨c', by simp only [lookup_eraseKey, if_neg hjv, h4], h5⟩
        · exact Or.inr h
    · have := hr.bounded
      simp only
      omega
    · intro j hj
      simp only [lookup_eraseKey, lookup_flushOne, hj]
      split_ifs <;> rfl

theorem Rep.ensureRoom (hr : Rep base p arr) (id : ℕ) :
    ∃ p', (ensureRoom id).run p = (.ok (), p') ∧ Rep base p' arr ∧
      ((p'.cache.lookup id).isSome ∨ p'.cache.length < p'.capacity) ∧ p'.pages = p.pages := by
  by_cases hc : (p.cache.lookup id).isSome = true
  · exact ⟨p, by simp [Pager.ensureRoom, Act.run_bind, hc], hr, Or.inl hc, rfl⟩
  · obtain ⟨p', he, hr', hlt, hpg, -⟩ := hr.evictIfNeeded
    exact ⟨p', by simp [Pager.ensureRoom, Act.run_bind, hc, he], hr', Or.inr hlt, hpg⟩

/-- The array with the page `id` replaced, or appended. -/
def putPage (arr : List Page) (id : ℕ) (b : Page) : List Page := arr.take id ++ b :: arr.drop (id + 1)

theorem getElem?_putPage {b : Page} (hid : id ≤ arr.length) (j : ℕ) :
    (putPage arr id b)[j]? = if j = id then some b else arr[j]? := by
  have hlen : (arr.take id).length = id := by simp; omega
  unfold putPage
  rcases lt_trichotomy j id with h | rfl | h
  · rw [List.getElem?_append_left (by omega), List.getElem?_take_of_lt h, if_neg (by omega)]
  · rw [List.getElem?_append_right (by omega), hlen, Nat.sub_self]; simp
  · obtain ⟨d, rfl⟩ : ∃ d, j = id + 1 + d := ⟨j - (id + 1), by omega⟩
    rw [List.getElem?_append_right (by omega), hlen, if_neg (by omega),
      show id + 1 + d - id = d + 1 by omega, List.getElem?_cons_succ, List.getElem?_drop]

theorem length_putPage {b : Page} (hid : id ≤ arr.length) :
    (putPage arr id b).length = max arr.length (id + 1) := by
  simp [putPage]; omega

theorem putPage_last (b : Page) : putPage arr arr.length b = arr ++ [b] := by simp [putPage]

theorem putPage_same {a : Page} (ha : arr[id]? = some a) : putPage arr id a = arr := by
  have hid : id < arr.length := (List.getElem?_eq_some_iff.1 ha).1
  refine List.ext_getElem? fun j => ?_
  rw [getElem?_putPage hid.le]
  split_ifs with h
  · rw [h, ha]
  · rfl

theorem lookup_insertCached {b : Page} {dirty : Bool} (j : ℕ) :
    (insertCached id b dirty p).cache.lookup j =
      if j = id then some ⟨b, dirty, p.clock⟩ else p.cache.lookup j := by
  simp only [insertCached, lookup_cons_if, lookup_eraseKey]
  split_ifs <;> rfl

/-- Putting a page into a cache with room for it.  It has to be dirty unless the file has it. -/
theorem Rep.insertCached {b : Page} (hr : Rep base p arr) (dirty : Bool) (hid : id ≤ arr.length)
    (hroom : (p.cache.lookup id).isSome ∨ p.cache.length < p.capacity)
    (hdirty : dirty = true ∨ At p.file (id * PAGE_SIZE) b.1) :
    Rep base (insertCached id b dirty p) (putPage arr id b) := by
  refine ⟨hr.capacity_pos, ?_, fun j c hj => ?_, fun j a ha => ?_, hr.traced⟩
  · have hle : (eraseKey id p.cache).length ≤ p.cache.length := List.length_filter_le _ _
    have hb := hr.bounded
    simp only [Pager.insertCached, List.length_cons]
    rcases hroom with h | h
    · have := length_eraseKey_lt h; omega
    · omega
  · rw [lookup_insertCached] at hj
    rw [getElem?_putPage hid]
    split_ifs at hj ⊢
    · cases hj; rfl
    · exact hr.cached j c hj
  · rw [getElem?_putPage hid] at ha
    rw [lookup_insertCached]
    split_ifs at ha ⊢ with hji
    · cases ha; subst hji
      exact hdirty.imp (fun hd => ⟨_, rfl, hd⟩) id
    · exact hr.stored j a ha

/-- **`write` is assignment in the array.** -/
theorem Rep.write (hr : Rep base p arr) (id : ℕ) (b : Page) (hid : id ≤ arr.length) (hp : id ≤ p.pages) :
    ∃ p', (write id b).run p = (.ok (), p') ∧ Rep base p' (putPage arr id b) ∧
      p'.pages = max p.pages (id + 1) := by
  obtain ⟨p₁, hp₁⟩ : ∃ p₁, p₁ = if id = p.pages then { p with pages := p.pages + 1 } else p := ⟨_, rfl⟩
  have hr₁ : Rep base p₁ arr := by
    rw [hp₁]; split_ifs
    · exact ⟨hr.capacity_pos, hr.bounded, hr.cached, hr.stored, hr.traced⟩
    · exact hr
  have hpages : p₁.pages = max p.pages (id + 1) := by rw [hp₁]; split_ifs <;> simp <;> omega
  have hclock : ∀ q, Rep base q arr → Rep base { q with clock := q.clock + 1 } arr :=
    fun q hq => ⟨hq.capacity_pos, hq.bounded, hq.cached, hq.stored, hq.traced⟩
  have hnot : ¬ id > p.pages := by omega
  obtain ⟨p₂, he, hr₂, hroom, hpg⟩ := hr₁.ensureRoom id
  refine ⟨_, ?_, (hclock _ hr₂).insertCached true hid hroom (Or.inl rfl), hpg.trans hpages⟩
  simp only [Pager.write, Act.run_bind, Act.run_gets, hnot, if_false, Act.run_modify, ← hp₁, he]

/-- **`allocate` appends a page of zeros.** -/
theorem Rep.allocate (hr : Rep base p arr) (hp : p.pages = arr.length) :
    ∃ p', allocate.run p = (.ok arr.length, p') ∧ Rep base p' (arr ++ [Page.zero]) ∧
      p'.pages = (arr ++ [Page.zero]).length := by
  have hr₁ : Rep base { p with pages := p.pages + 1 } arr :=
    ⟨hr.capacity_pos, hr.bounded, hr.cached, hr.stored, hr.traced⟩
  obtain ⟨p', h1, h2, h3⟩ := hr₁.write p.pages Page.zero (by omega) (by simp)
  rw [hp, putPage_last] at h2
  refine ⟨p', ?_, h2, ?_⟩
  · rw [hp] at h1
    simp only [Pager.allocate, Act.run_bind, Act.run_gets, Act.run_modify, hp, h1, Act.run_pure]
  · rw [h3]; simp; omega

theorem readPage_of_at {file : Bytes} {a : Page} (ha : At file (id * PAGE_SIZE) a.1) :
    readPage file id = .ok a := by
  have hs : slice file (id * PAGE_SIZE) PAGE_SIZE = a.1 := by
    have := ha; unfold At at this; rwa [a.2] at this
  rw [readPage, dif_pos (by rw [hs, a.2])]
  exact congrArg Except.ok (Subtype.ext hs)

theorem Rep.ensureLoaded {a : Page} (hr : Rep base p arr) (ha : arr[id]? = some a)
    (hp : p.pages = arr.length) :
    ∃ p' c, (ensureLoaded id).run p = (.ok (), p') ∧ Rep base p' arr ∧ p'.pages = p.pages ∧
      p'.cache.lookup id = some c ∧ c.bytes = a := by
  have hlt : ¬ id ≥ p.pages := by rw [hp]; exact not_le.2 (List.getElem?_eq_some_iff.1 ha).1
  rcases hc : p.cache.lookup id with _ | c
  · obtain ⟨p₁, he, hr₁, hroom, hpg, hnone⟩ := hr.evictIfNeeded
    have hat : At p₁.file (id * PAGE_SIZE) a.1 := by
      rcases hr₁.stored id a ha with ⟨c, h1, -⟩ | h
      · rw [hnone id hc] at h1; cases h1
      · exact h
    have hins := hr₁.insertCached false (List.getElem?_eq_some_iff.1 ha).1.le
      (Or.inr hroom) (Or.inr hat)
    rw [putPage_same ha] at hins
    refine ⟨_, ⟨a, false, p₁.clock⟩, ?_, hins, hpg, by rw [lookup_insertCached, if_pos rfl], rfl⟩
    simp only [Pager.ensureLoaded, Act.run_bind, Act.run_gets, if_neg hlt, hc, Option.isSome_none,
      Bool.false_eq_true, if_false, he, readPage_of_at hat, Act.run_lift, Act.run_modify]
  · refine ⟨p, c, ?_, hr, rfl, hc, ?_⟩
    · simp only [Pager.ensureLoaded, Act.run_bind, Act.run_gets, if_neg hlt, hc, Option.isSome_some,
        if_true, Act.run_pure]
    · have := hr.cached id c hc
      rw [ha] at this
      exact (Option.some.inj this).symm

/-- **`read` is indexing in the array.** -/
theorem Rep.read {a : Page} (hr : Rep base p arr) (id : ℕ) (ha : arr[id]? = some a)
    (hp : p.pages = arr.length) :
    ∃ p', (read id).run p = (.ok a, p') ∧ Rep base p' arr ∧ p'.pages = p.pages := by
  obtain ⟨p₁, c, he, hr₁, hpg, hc, rfl⟩ := hr.ensureLoaded ha hp
  refine ⟨{ p₁ with
      clock := p₁.clock + 1
      cache := updateKey id { c with touched := p₁.clock + 1 } p₁.cache },
    by simp only [Pager.read, Act.run_bind, Act.run_gets, he, hc, Act.run_modify, Act.run_pure],
    ⟨hr₁.capacity_pos, ?_, fun j c' hj => ?_, fun j a' ha' => ?_, hr₁.traced⟩, hpg⟩
  · simpa [updateKey] using hr₁.bounded
  · simp only [lookup_updateKey, hc] at hj
    split_ifs at hj with hji
    · cases hj; subst hji; exact hr₁.cached j c hc
    · exact hr₁.cached j c' hj
  · simp only [lookup_updateKey, hc]
    rcases hr₁.stored j a' ha' with ⟨c', h1, h2⟩ | h
    · refine Or.inl ?_
      split_ifs with hji
      · subst hji; rw [hc] at h1; cases h1
        exact ⟨_, rfl, h2⟩
      · exact ⟨c', h1, h2⟩
    · exact Or.inr h

/-- Flushing a list of pages. -/
theorem Rep.foldl_flushOne (hr : Rep base p arr) (ids : List ℕ) :
    Rep base (ids.foldl Pager.flushOne p) arr ∧ (ids.foldl Pager.flushOne p).pages = p.pages ∧
      ∀ j c, (ids.foldl Pager.flushOne p).cache.lookup j = some c → c.dirty = true →
        j ∉ ids ∧ p.cache.lookup j = some c := by
  induction ids generalizing p with
  | nil => exact ⟨hr, rfl, fun j c h _ => ⟨by simp, h⟩⟩
  | cons i ids ih =>
    obtain ⟨h1, h2, h3⟩ := ih (hr.flushOne i).1
    refine ⟨h1, h2.trans (flushOne_capacity p i).2.1, fun j c hj hd => ?_⟩
    obtain ⟨h4, h5⟩ := h3 j c hj hd
    rw [lookup_flushOne] at h5
    split_ifs at h5 with hji
    · obtain ⟨c', -, rfl⟩ := Option.map_eq_some_iff.1 h5
      simp at hd
    · exact ⟨by simp [hji, h4], h5⟩

/-- **After a flush the file is the concatenation of the pages**, and durable. -/
theorem Rep.flush (hr : Rep base p arr) (hp : p.pages = arr.length)
    (hsize : arr.length * PAGE_SIZE < 2 ^ 63) :
    ∃ p', flush.run p = (.ok (), p') ∧ Rep base p' arr ∧ p'.pages = arr.length ∧
      p'.file = arr.flatMap Subtype.val ∧
      p'.issued.foldl (fun f op => op.run f) (File.settled base) = File.settled p'.file := by
  obtain ⟨hr₁, hpg, hclean⟩ := hr.foldl_flushOne ((p.cache.filter fun e => e.2.dirty).map Prod.fst)
  set p₁ := ((p.cache.filter fun e => e.2.dirty).map Prod.fst).foldl Pager.flushOne p with hp₁
  have hall : ∀ id a, arr[id]? = some a → At p₁.file (id * PAGE_SIZE) a.1 := by
    intro id a ha
    rcases hr₁.stored id a ha with ⟨c, h1, h2⟩ | h
    · obtain ⟨h3, h4⟩ := hclean id c h1 h2
      refine absurd (List.mem_map.2 ⟨(id, c), ?_, rfl⟩) h3
      exact List.mem_filter.2 ⟨mem_of_lookup h4, h2⟩
    · exact h
  have hlen : arr.length * PAGE_SIZE ≤ p₁.file.length := by
    rcases Nat.eq_zero_or_pos arr.length with h0 | h0
    · rw [h0]; simp
    · have hlast : arr[arr.length - 1]? = some arr[arr.length - 1] := List.getElem?_eq_getElem (by omega)
      have := (hall _ _ hlast).length_le (Page.ne_nil _)
      rw [arr[arr.length - 1].2] at this
      calc arr.length * PAGE_SIZE = (arr.length - 1 + 1) * PAGE_SIZE := by rw [Nat.sub_add_cancel h0]
        _ = (arr.length - 1) * PAGE_SIZE + PAGE_SIZE := Nat.succ_mul _ _
        _ ≤ p₁.file.length := this
  have hcut : ∀ id a, arr[id]? = some a →
      At (setLen p₁.file (arr.length * PAGE_SIZE)) (id * PAGE_SIZE) a.1 := by
    intro id a ha
    rw [setLen_of_le hlen]
    refine (hall id a ha).take ?_
    have hlt := (List.getElem?_eq_some_iff.1 ha).1
    have := Nat.mul_le_mul_right PAGE_SIZE (Nat.succ_le_of_lt hlt)
    rw [Nat.succ_mul] at this
    rw [a.2]
    exact this
  have hfile : setLen p₁.file (arr.length * PAGE_SIZE) = arr.flatMap Subtype.val := by
    refine eq_flatMap_of_at Subtype.val (fun a => a.2) ?_ hcut
    rw [setLen_of_le hlen, List.length_take, Nat.min_eq_left hlen]
  refine ⟨{ p₁ with
      file := setLen p₁.file (arr.length * PAGE_SIZE)
      issued := p₁.issued ++ [.setLen (arr.length * PAGE_SIZE), .sync] }, ?_,
    ⟨hr₁.capacity_pos, hr₁.bounded, hr₁.cached, fun id a ha => Or.inr (hcut id a ha), ?_⟩,
    hpg.trans hp, hfile, ?_⟩
  · have hsz : p₁.pages * PAGE_SIZE = arr.length * PAGE_SIZE := by rw [hpg, hp]
    simp only [Pager.flush, Act.run_bind, Act.run_modify, Act.run_gets, ← hp₁, hsz, if_pos hsize]
  · have := hr₁.traced
    simp only [contentAfter, List.foldl_append, List.foldl_cons, List.foldl_nil, FileOp.run,
      File.settled] at this ⊢
    rw [this]
  · have := hr₁.traced
    simp only [contentAfter, List.foldl_append, List.foldl_cons, List.foldl_nil, FileOp.run,
      File.settled] at this ⊢
    rw [this]

end Rep

end Pager

end NutDb
