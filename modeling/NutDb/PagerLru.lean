/-
  Which pages the pager keeps (`src/pager.rs`).

  The clock stamps every use of a page, and eviction takes the page with the
  oldest stamp.  So the cache has the pages that were used last, as many as it
  has room for, and a larger cache never reads the file more often.
-/
import NutDb.PagerRuns
import NutDb.Lib.Lru

namespace NutDb

open Lib

namespace Pager

/-- When a page of the cache was used last. -/
def stamp (p : Pager) (id : ℕ) : ℕ := ((p.cache.lookup id).map CachedPage.touched).getD 0

/-- The cache has the pages of a list, the one that was used last first. -/
structure Ranked (p : Pager) (l : List ℕ) : Prop where
  keys : (p.cache.map Prod.fst).Perm l
  nodup : l.Nodup
  order : l.Pairwise fun a b => p.stamp b < p.stamp a
  clock : ∀ a ∈ l, p.stamp a ≤ p.clock

section Ranked
variable {p q : Pager} {l : List ℕ} {id : ℕ}

theorem Ranked.mem_iff (h : Ranked p l) : id ∈ l ↔ (p.cache.lookup id).isSome := by
  rw [lookup_isSome_iff, ← h.keys.mem_iff, List.mem_map]
  constructor
  · rintro ⟨⟨k, c⟩, hmem, rfl⟩
    exact ⟨c, hmem⟩
  · rintro ⟨c, hmem⟩
    exact ⟨(id, c), hmem, rfl⟩

theorem Ranked.length (h : Ranked p l) : p.cache.length = l.length := by
  rw [← h.keys.length_eq, List.length_map]

/-- A pager with the same pages and stamps. -/
theorem Ranked.congr (h : Ranked p l) (hkeys : q.cache.map Prod.fst = p.cache.map Prod.fst)
    (hstamp : ∀ j, q.stamp j = p.stamp j) (hclock : p.clock ≤ q.clock) : Ranked q l := by
  refine ⟨by rw [hkeys]; exact h.keys, h.nodup, ?_, fun a ha => ?_⟩
  · exact h.order.imp fun hab => by rw [hstamp, hstamp]; exact hab
  · rw [hstamp]
    exact (h.clock a ha).trans hclock

/-- **A page is used.** -/
theorem Ranked.use (h : Ranked p l) (hkeys : (q.cache.map Prod.fst).Perm (id :: l.erase id))
    (hother : ∀ j, j ≠ id → q.stamp j = p.stamp j) (hself : q.stamp id = q.clock) (hclock : p.clock < q.clock) :
    Ranked q (Lru.use id l) := by
  have hne : ∀ j ∈ l.erase id, j ≠ id ∧ j ∈ l := by
    intro j hj
    refine ⟨?_, List.mem_of_mem_erase hj⟩
    rintro rfl
    exact h.nodup.not_mem_erase hj
  refine ⟨hkeys, Lru.nodup_use h.nodup, List.pairwise_cons.2 ⟨fun j hj => ?_, ?_⟩, fun a ha => ?_⟩
  · obtain ⟨hj, hmem⟩ := hne j hj
    rw [hother j hj, hself]
    exact (h.clock j hmem).trans_lt hclock
  · refine (h.order.sublist List.erase_sublist).imp_of_mem fun ha hb hab => ?_
    rw [hother _ (hne _ ha).1, hother _ (hne _ hb).1]
    exact hab
  · rcases List.mem_cons.1 ha with rfl | ha
    · exact hself.le
    · obtain ⟨hj, hmem⟩ := hne a ha
      rw [hother a hj]
      exact (h.clock a hmem).trans hclock.le

/-! ## Eviction -/

theorem keys_updateKey (id : ℕ) (c : CachedPage) (cache : List (ℕ × CachedPage)) :
    (updateKey id c cache).map Prod.fst = cache.map Prod.fst := by
  rw [updateKey, List.map_map]
  refine List.map_congr_left fun e _ => ?_
  simp only [Function.comp_apply]
  split_ifs with he
  · exact he.symm
  · rfl

theorem keys_eraseKey (id : ℕ) (cache : List (ℕ × CachedPage)) :
    (eraseKey id cache).map Prod.fst = (cache.map Prod.fst).filter fun k => decide (k ≠ id) := by
  rw [eraseKey, List.filter_map]
  rfl

theorem Ranked.flushOne (h : Ranked p l) (id : ℕ) : Ranked (p.flushOne id) l := by
  refine h.congr ?_ (fun j => ?_) ?_
  · unfold Pager.flushOne
    split
    · rfl
    · split_ifs
      · exact keys_updateKey _ _ _
      · rfl
  · rw [stamp, stamp, lookup_flushOne]
    split_ifs with hj
    · rw [Option.map_map]
      rfl
    · rfl
  · unfold Pager.flushOne
    split
    · exact le_rfl
    · split_ifs
      · exact le_rfl
      · exact le_rfl

theorem Ranked.foldl_flushOne (ids : List ℕ) : ∀ {p : Pager}, Ranked p l →
    Ranked (ids.foldl Pager.flushOne p) l := by
  induction ids with
  | nil => exact fun h => h
  | cons id ids ih => exact fun h => ih (h.flushOne id)

/-- The page with the oldest stamp is the last one of the list. -/
theorem Ranked.oldest {victim : ℕ} {c : CachedPage} {front : List ℕ} {last : ℕ}
    (h : Ranked p (front ++ [last])) (hv : (victim, c) ∈ p.cache.argmin fun e => e.2.touched) : victim = last := by
  have hlookup : ∀ {k : ℕ} {d : CachedPage}, (k, d) ∈ p.cache → p.stamp k = d.touched := by
    intro k d hd
    have hnodup : (p.cache.map Prod.fst).Nodup := h.keys.nodup_iff.2 h.nodup
    obtain ⟨d', hd'⟩ := Option.isSome_iff_exists.1 (lookup_isSome_iff.2 ⟨d, hd⟩)
    have heq := List.inj_on_of_nodup_map hnodup hd (mem_of_lookup hd') rfl
    rw [stamp, hd']
    simp [(Prod.mk.inj heq).2]
  obtain ⟨d, hd⟩ := lookup_isSome_iff.1 (h.mem_iff.1 (List.mem_append_right front List.mem_cons_self))
  have hle : c.touched ≤ d.touched :=
    List.le_of_mem_argmin (f := fun e : ℕ × CachedPage => e.2.touched) hd hv
  have hmem : victim ∈ front ++ [last] :=
    h.keys.mem_iff.1 (List.mem_map.2 ⟨(victim, c), List.argmin_mem hv, rfl⟩)
  rcases List.mem_append.1 hmem with hmem | hmem
  · -- whoever comes before the last one was used after it
    have hlt := (List.pairwise_append.1 h.order).2.2 victim hmem last List.mem_cons_self
    rw [hlookup hd, hlookup (List.argmin_mem hv)] at hlt
    omega
  · exact List.mem_singleton.1 hmem

theorem Ranked.eraseLast {front : List ℕ} {last : ℕ} (h : Ranked p (front ++ [last])) :
    Ranked { p with cache := eraseKey last p.cache } front := by
  have hnotin : last ∉ front := fun hmem => by
    have := (List.nodup_append.1 h.nodup).2.2 last hmem last List.mem_cons_self
    exact this rfl
  have hstamp : ∀ j ∈ front, ({ p with cache := eraseKey last p.cache } : Pager).stamp j = p.stamp j := by
    intro j hj
    have hne : j ≠ last := fun heq => hnotin (heq ▸ hj)
    rw [stamp, stamp, lookup_eraseKey, if_neg hne]
  refine ⟨?_, (List.nodup_append.1 h.nodup).1, ?_, fun a ha => ?_⟩
  · rw [keys_eraseKey]
    refine (h.keys.filter _).trans (List.Perm.of_eq ?_)
    rw [List.filter_append, List.filter_eq_self.2 fun a ha => ?_, List.filter_cons_of_neg (by simp), List.filter_nil,
      List.append_nil]
    exact decide_eq_true fun heq => hnotin (heq ▸ ha)
  · refine (List.pairwise_append.1 h.order).1.imp_of_mem fun ha hb hab => ?_
    rw [hstamp _ ha, hstamp _ hb]
    exact hab
  · rw [hstamp a ha]
    exact h.clock a (List.mem_append_left _ ha)

/-- **`evict_if_needed`** leaves room for one page. -/
theorem Ranked.evictIfNeeded {u : Unit} (h : Ranked p l) (hlen : l.length ≤ p.capacity)
    (hrun : evictIfNeeded.run p = (.ok u, q)) : Ranked q (l.take (p.capacity - 1)) ∧ q.clock = p.clock := by
  rw [Pager.evictIfNeeded, Act.run_bind_ok (Act.run_gets _ p)] at hrun
  by_cases hroom : p.cache.length < p.capacity
  · rw [if_pos (by exact hroom)] at hrun
    cases hrun
    rw [h.length] at hroom
    rw [List.take_of_length_le (by omega)]
    exact ⟨h, rfl⟩
  · rw [if_neg (by exact hroom)] at hrun
    rw [h.length] at hroom
    rcases hv : p.cache.argmin (fun e => e.2.touched) with _ | ⟨victim, c⟩
    · simp only [id_eq, hv] at hrun
      cases hrun
    · simp only [id_eq, hv] at hrun
      cases hrun
      have hne : l ≠ [] := by
        rintro rfl
        have := h.keys.mem_iff.1 (List.mem_map.2 ⟨(victim, c), List.argmin_mem hv, rfl⟩)
        cases this
      have hsplit := List.dropLast_append_getLast hne
      rw [← hsplit] at h
      have hlast := h.oldest hv
      have hclock : (p.flushOne victim).clock = p.clock := by
        unfold Pager.flushOne
        split
        · rfl
        · split_ifs
          · rfl
          · rfl
      refine ⟨?_, hclock⟩
      have htake : l.take (p.capacity - 1) = l.dropLast := by
        rw [List.dropLast_eq_take]
        congr 1
        omega
      rw [htake, hlast]
      exact (h.flushOne (l.getLast hne)).eraseLast

/-! ## One call -/

theorem keys_insertCached (id : ℕ) (bytes : Page) (dirty : Bool) (h : Ranked p l) :
    ((insertCached id bytes dirty p).cache.map Prod.fst).Perm (id :: l.erase id) := by
  rw [insertCached, List.map_cons, keys_eraseKey, h.nodup.erase_eq_filter]
  have hsame : (l.filter fun x => x != id) = l.filter fun k => decide (k ≠ id) :=
    List.filter_congr fun k _ => by by_cases hk : k = id <;> simp [hk]
  rw [hsame]
  exact (h.keys.filter _).cons id

/-- **The page that is used** goes to the front; if it is new, the last one may have to go. -/
theorem Ranked.used {l' : List ℕ} {capacity : ℕ} (h : Ranked q (Lru.use id l')) (hcap : 0 < capacity)
    (hlen : l.length ≤ capacity) (hl' : (id ∈ l ∧ l' = l) ∨ (id ∉ l ∧ l' = l.take (capacity - 1))) :
    Ranked q ((Lru.use id l).take capacity) := by
  rcases hl' with ⟨hid, rfl⟩ | ⟨hid, rfl⟩
  · rw [Lru.take_use_of_mem hid hlen]
    exact h
  · rw [Lru.take_use_of_notMem hid hcap]
    exact h

theorem Ranked.ensureRoom {u : Unit} (h : Ranked p l) (hlen : l.length ≤ p.capacity)
    (hrun : (ensureRoom id).run p = (.ok u, q)) : ∃ l', Ranked q l' ∧ q.clock = p.clock ∧
      ((id ∈ l ∧ l' = l) ∨ (id ∉ l ∧ l' = l.take (p.capacity - 1))) := by
  rw [Pager.ensureRoom, Act.run_bind_ok (Act.run_gets _ p)] at hrun
  by_cases hid : (p.cache.lookup id).isSome = true
  · rw [if_pos hid] at hrun
    cases hrun
    exact ⟨l, h, rfl, Or.inl ⟨h.mem_iff.2 hid, rfl⟩⟩
  · rw [if_neg hid] at hrun
    obtain ⟨h1, h2⟩ := h.evictIfNeeded hlen hrun
    exact ⟨_, h1, h2, Or.inr ⟨fun hmem => hid (h.mem_iff.1 hmem), rfl⟩⟩

/-- **`write`**. -/
theorem Ranked.write {bytes : Page} {u : Unit} (h : Ranked p l) (hcap : 0 < p.capacity)
    (hlen : l.length ≤ p.capacity) (hrun : (write id bytes).run p = (.ok u, q)) :
    Ranked q ((Lru.use id l).take p.capacity) := by
  rw [Pager.write, Act.run_bind_ok (Act.run_gets _ p)] at hrun
  split_ifs at hrun with hskip
  · cases hrun
  obtain ⟨p₁, hp₁⟩ : ∃ p₁, p₁ = if id = p.pages then { p with pages := p.pages + 1 } else p := ⟨_, rfl⟩
  have h₁ : Ranked p₁ l ∧ p₁.capacity = p.capacity := by
    rw [hp₁]
    split_ifs
    · exact ⟨h.congr rfl (fun _ => rfl) le_rfl, rfl⟩
    · exact ⟨h, rfl⟩
  rw [Act.run_bind_ok (Act.run_modify _ p), ← hp₁] at hrun
  obtain ⟨v, p₂, hroom, hrun⟩ := Act.run_bind_eq_ok.1 hrun
  cases hrun
  obtain ⟨l', h₂, hclock, hl'⟩ := h₁.1.ensureRoom (by rw [h₁.2]; exact hlen) hroom
  rw [h₁.2] at hl'
  refine Ranked.used (h₂.use ?_ (fun j hj => ?_) ?_ ?_) hcap hlen hl'
  · have h₃ : Ranked { p₂ with clock := p₂.clock + 1 } l' := h₂.congr rfl (fun _ => rfl) (Nat.le_succ _)
    exact keys_insertCached id bytes true h₃
  · rw [stamp, lookup_insertCached, if_neg hj]
    rfl
  · rw [stamp, lookup_insertCached, if_pos rfl]
    rfl
  · exact Nat.lt_succ_self p₂.clock

/-- What a page that is loaded leaves behind. -/
theorem ensureLoaded_ok {u : Unit} (hrun : (ensureLoaded id).run p = (.ok u, q)) :
    (p.cache.lookup id).isSome ∧ q = p ∨ (p.cache.lookup id).isNone ∧
      ∃ p₁ bytes, evictIfNeeded.run p = (.ok (), p₁) ∧ q = insertCached id bytes false p₁ := by
  rw [Pager.ensureLoaded, Act.run_bind_ok (Act.run_gets _ p)] at hrun
  split_ifs at hrun with hid hcached
  · cases hrun
  · cases hrun
    exact Or.inl ⟨hcached, rfl⟩
  · obtain ⟨v, p₁, hevict, hrun⟩ := Act.run_bind_eq_ok.1 hrun
    rw [Act.run_bind_ok (Act.run_gets _ p₁)] at hrun
    obtain ⟨bytes, p₂, hread, hrun⟩ := Act.run_bind_eq_ok.1 hrun
    rw [Act.run_lift] at hread
    obtain ⟨-, rfl⟩ := Prod.mk.inj hread
    cases hrun
    exact Or.inr ⟨Option.isNone_iff_eq_none.2 (Option.not_isSome_iff_eq_none.1 hcached), p₁, bytes, hevict, rfl⟩

/-- **`read`**. -/
theorem Ranked.read {bytes : Page} (h : Ranked p l) (hcap : 0 < p.capacity) (hlen : l.length ≤ p.capacity)
    (hrun : (read id).run p = (.ok bytes, q)) : Ranked q ((Lru.use id l).take p.capacity) := by
  rw [Pager.read] at hrun
  obtain ⟨u, p₁, hload, hrun⟩ := Act.run_bind_eq_ok.1 hrun
  rw [Act.run_bind_ok (Act.run_gets _ p₁)] at hrun
  rcases hc : p₁.cache.lookup id with _ | c
  · rw [hc] at hrun
    cases hrun
  rw [hc] at hrun
  cases hrun
  have hother : ∀ j, j ≠ id →
      (updateKey id { c with touched := p₁.clock + 1 } p₁.cache).lookup j = p₁.cache.lookup j := by
    intro j hj
    rw [lookup_updateKey, if_neg hj]
  have hself : (updateKey id { c with touched := p₁.clock + 1 } p₁.cache).lookup id =
      some { c with touched := p₁.clock + 1 } := by
    rw [lookup_updateKey, if_pos rfl, hc]
    rfl
  rcases ensureLoaded_ok hload with ⟨hsome, rfl⟩ | ⟨hnone, p₂, page, hevict, rfl⟩
  · have hid := h.mem_iff.2 hsome
    refine Ranked.used (h.use ?_ (fun j hj => ?_) ?_ ?_) hcap hlen (Or.inl ⟨hid, rfl⟩)
    · rw [keys_updateKey]
      exact h.keys.trans (List.perm_cons_erase hid)
    · rw [stamp, hother j hj]
      rfl
    · rw [stamp, hself]
      rfl
    · exact Nat.lt_succ_self _
  · obtain ⟨h₂, -⟩ := h.evictIfNeeded hlen hevict
    have hid : id ∉ l := fun hmem => by
      have := h.mem_iff.1 hmem
      rw [Option.isNone_iff_eq_none.1 hnone] at this
      cases this
    refine Ranked.used (h₂.use ?_ (fun j hj => ?_) ?_ ?_) hcap hlen (Or.inr ⟨hid, rfl⟩)
    · rw [keys_updateKey]
      exact keys_insertCached id page false h₂
    · rw [stamp, hother j hj, lookup_insertCached, if_neg hj]
      rfl
    · rw [stamp, hself]
      rfl
    · exact Nat.lt_succ_self _

theorem Ranked.flush {u : Unit} (h : Ranked p l) (hrun : flush.run p = (.ok u, q)) : Ranked q l := by
  have h' := h.foldl_flushOne ((p.cache.filter fun e => e.2.dirty).map Prod.fst)
  rw [Pager.flush, Act.run_bind_ok (Act.run_modify _ p), Act.run_bind_ok (Act.run_gets _ _)] at hrun
  dsimp only at hrun
  split_ifs at hrun with hsize
  · cases hrun
    exact h'.congr rfl (fun _ => rfl) le_rfl
  · cases hrun

end Ranked

/-! ## Runs -/

/-- The page that a call uses, when there are `size` pages. -/
def Op.uses (size : ℕ) : Op → List ℕ
  | .allocate => [size]
  | .write id _ => if id ≤ size then [id] else []
  | .read id => if id < size then [id] else []
  | .flush => []

/-- The pages that the calls of a run use. -/
def usesOf : List Op → List Page → List ℕ
  | [], _ => []
  | op :: ops, arr => op.uses arr.length ++ usesOf ops (op.onArray.run arr).2

/-- Whether a call reads the file. -/
def Op.readsFile (p : Pager) : Op → Bool
  | .read id => decide (id < p.pages) && (p.cache.lookup id).isNone
  | _ => false

/-- How often a run reads the file. -/
def fileReads : List Op → Pager → ℕ
  | [], _ => 0
  | op :: ops, p => (if op.readsFile p then 1 else 0) + fileReads ops (op.run.run p).2

section Runs
variable {base base' file : Bytes} {p p' : Pager} {arr : List Page} {capacity capacity' : ℕ} {l : List ℕ}

/-- A pager that stands for an array and keeps the pages that were used last. -/
structure Keeps (base : Bytes) (capacity : ℕ) (p : Pager) (arr : List Page) (l : List ℕ) : Prop where
  stands : Stands base capacity p arr
  ranked : Ranked p (l.take capacity)

theorem Keeps.fits (h : Keeps base capacity p arr l) :
    0 < p.capacity ∧ (l.take capacity).length ≤ p.capacity := by
  have hcap := h.stands.capacity
  exact ⟨h.stands.rep.capacity_pos, by rw [hcap, List.length_take]; exact min_le_left _ _⟩

/-- A flush fails on a file that is too large, and only then. -/
theorem Stands.flush_ok (h : Stands base capacity p arr) :
    (Op.flush.run.run p).1 = .ok .unit ↔ arr.length * PAGE_SIZE < 2 ^ 63 := by
  constructor
  · exact h.flush_fits
  · intro hsize
    obtain ⟨p', hrun, -⟩ := h.rep.flush h.pages hsize
    have hres : Op.flush.run.run p = (.ok .unit, p') := Act.run_bind_ok hrun
    rw [hres]

/-- **One call** uses its page. -/
theorem Keeps.step (h : Keeps base capacity p arr l) (op : Op)
    (hok : op = .flush → (op.run.run p).1 = .ok .unit) :
    Keeps base capacity (op.run.run p).2 (op.onArray.run arr).2
      ((op.uses arr.length).foldl (fun l k => Lru.use k l) l) := by
  obtain ⟨hpos, hlen⟩ := h.fits
  obtain ⟨-, hstands⟩ := h.stands.step op hok
  refine ⟨hstands, ?_⟩
  have hput : ∀ {id : ℕ} {q : Pager}, Ranked q ((Lru.use id (l.take capacity)).take p.capacity) →
      Ranked q ((Lru.use id l).take capacity) := by
    intro id q hq
    rw [h.stands.capacity, Lru.take_use] at hq
    exact hq
  cases op with
  | allocate =>
    obtain ⟨p', hrun, -⟩ := h.stands.rep.allocate h.stands.pages
    have hres : Op.allocate.run.run p = (.ok (.id arr.length), p') := Act.run_bind_ok hrun
    rw [hres]
    have hrank : Ranked { p with pages := p.pages + 1 } (l.take capacity) :=
      h.ranked.congr rfl (fun _ => rfl) le_rfl
    rw [Pager.allocate, Act.run_bind_ok (Act.run_gets _ p), Act.run_bind_ok (Act.run_modify _ p)] at hrun
    obtain ⟨u, q, hwrite, hrun⟩ := Act.run_bind_eq_ok.1 hrun
    rw [Act.run_pure] at hrun
    obtain ⟨-, rfl⟩ := Prod.mk.inj hrun
    have hused := hrank.write hpos hlen hwrite
    rw [h.stands.pages] at hused
    exact hput hused
  | write id bytes =>
    by_cases hid : id ≤ arr.length
    · obtain ⟨p', hrun, -⟩ := h.stands.rep.write id bytes hid (h.stands.pages ▸ hid)
      have hres : (Op.write id bytes).run.run p = (.ok .unit, p') := Act.run_bind_ok hrun
      rw [hres, Op.uses, if_pos hid]
      exact hput (h.ranked.write hpos hlen hrun)
    · have hgt : id > p.pages := by rw [h.stands.pages]; omega
      rw [Op.write_beyond hgt, Op.uses, if_neg hid]
      exact h.ranked
  | read id =>
    by_cases hid : id < arr.length
    · obtain ⟨p', hrun, -⟩ := h.stands.rep.read id (List.getElem?_eq_getElem hid) h.stands.pages
      have hres : (Op.read id).run.run p = (.ok (.page arr[id]), p') := Act.run_bind_ok hrun
      rw [hres, Op.uses, if_pos hid]
      exact hput (h.ranked.read hpos hlen hrun)
    · have hge : id ≥ p.pages := by rw [h.stands.pages]; omega
      rw [Op.read_beyond hge, Op.uses, if_neg hid]
      exact h.ranked
  | flush =>
    obtain ⟨answer, q, hrun⟩ : ∃ answer q, Op.flush.run.run p = (answer, q) := ⟨_, _, rfl⟩
    have hanswer := hok rfl
    rw [hrun] at hanswer ⊢
    cases hanswer
    obtain ⟨u, p₁, hflush, hret⟩ := Act.run_bind_eq_ok.1 hrun
    cases hret
    exact h.ranked.flush hflush

theorem Keeps.opened (hopen : openInner file capacity = .ok p) : Keeps file capacity p (pagesOf file) [] := by
  obtain ⟨hr, hp, hcap, -⟩ := openInner_spec hopen
  refine ⟨⟨hr, hp, hcap⟩, ?_⟩
  unfold openInner at hopen
  split_ifs at hopen
  · cases hopen
  · cases hopen
  · cases hopen
    rw [List.take_nil]
    exact ⟨List.Perm.refl _, List.nodup_nil, List.Pairwise.nil, fun a ha => (nomatch ha)⟩

/-- **A run** uses its pages. -/
theorem Keeps.calls (ops : List Op) : ∀ {p : Pager} {arr : List Page} {l : List ℕ}, Keeps base capacity p arr l →
    Flushes ops (Act.calls (ops.map Op.run) p).1 →
    Keeps base capacity (Act.calls (ops.map Op.run) p).2 (Act.calls (ops.map Op.onArray) arr).2
      ((usesOf ops arr).foldl (fun l k => Lru.use k l) l) := by
  induction ops with
  | nil => exact fun h _ => h
  | cons op ops ih =>
    intro p arr l h hio
    have hnext := ih (h.step op fun hop => hio _ List.mem_cons_self hop)
      fun e he => hio e (List.mem_cons_of_mem _ he)
    rw [usesOf, List.foldl_append]
    exact hnext

/-- **The cache has the pages that were used last**, as many as it has room for, and their stamps are
    in the order of their last use. -/
theorem keeps_recent (hopen : openInner file capacity = .ok p) (ops : List Op)
    (hio : Flushes ops (Act.calls (ops.map Op.run) p).1) :
    let recent := (Lru.byUse (usesOf ops (pagesOf file))).take capacity
    let p' := (Act.calls (ops.map Op.run) p).2
    (p'.cache.map Prod.fst).Perm recent ∧ recent.Pairwise fun a b => p'.stamp b < p'.stamp a := by
  have hrank := ((Keeps.opened hopen).calls ops hio).ranked
  exact ⟨hrank.keys, hrank.order⟩

/-- In a run with a cache for two pages, reading the first page again makes the second one go. -/
theorem keeps_recent_third : ∃ p, openInner [] 2 = .ok p ∧
    ((Act.calls ([Op.allocate, .allocate, .read 0, .allocate].map Op.run) p).2.cache.map Prod.fst).Perm [2, 0] := by
  have hopen : openInner [] 2 = .ok { file := [], capacity := 2, pages := 0 } := rfl
  have hio : ∀ results, Flushes [.allocate, .allocate, .read 0, .allocate] results := by
    rintro results ⟨op, r⟩ hmem rfl
    have hop := (List.of_mem_zip hmem).1
    simp at hop
  exact ⟨_, hopen, (keeps_recent hopen _ (hio _)).1⟩

/-- A page in the smaller of two caches is in the larger one. -/
theorem Keeps.readsFile_le (h : Keeps base capacity p arr l) (h' : Keeps base' capacity' p' arr l)
    (hle : capacity ≤ capacity') (op : Op) : op.readsFile p' = true → op.readsFile p = true := by
  cases op with
  | read id =>
    intro hreads
    simp only [Op.readsFile, Bool.and_eq_true, decide_eq_true_eq] at hreads ⊢
    refine ⟨by rw [h.stands.pages, ← h'.stands.pages]; exact hreads.1, ?_⟩
    rw [Option.isNone_iff_eq_none, ← Option.not_isSome_iff_eq_none, ← h.ranked.mem_iff]
    intro hmem
    have hmem' := h'.ranked.mem_iff.1 ((List.take_subset_take_left l hle) hmem)
    rw [Option.isNone_iff_eq_none.1 hreads.2] at hmem'
    cases hmem'
  | _ => exact fun hreads => (nomatch hreads)

theorem Keeps.fileReads_le (ops : List Op) (hle : capacity ≤ capacity') : ∀ {p p' : Pager} {arr : List Page}
    {l : List ℕ}, Keeps base capacity p arr l → Keeps base' capacity' p' arr l →
    Flushes ops (Act.calls (ops.map Op.run) p).1 → fileReads ops p' ≤ fileReads ops p := by
  induction ops with
  | nil => exact fun _ _ _ => le_rfl
  | cons op ops ih =>
    intro p p' arr l h h' hio
    have hok : op = .flush → (op.run.run p).1 = .ok .unit := fun hop => hio _ List.mem_cons_self hop
    have hok' : op = .flush → (op.run.run p').1 = .ok .unit := by
      rintro rfl
      exact h'.stands.flush_ok.2 (h.stands.flush_ok.1 (hok rfl))
    have hrest := ih (h.step op hok) (h'.step op hok') fun e he => hio e (List.mem_cons_of_mem _ he)
    have hone := h.readsFile_le h' hle op
    rw [fileReads, fileReads]
    split_ifs with h1 h2
    · omega
    · exact absurd (hone h1) h2
    · omega
    · omega

/-- **A larger cache does not read the file more often**, in any run. -/
theorem larger_cache_reads_less (hopen : openInner file capacity = .ok p)
    (hopen' : openInner file capacity' = .ok p') (hle : capacity ≤ capacity') (ops : List Op)
    (hio : Flushes ops (Act.calls (ops.map Op.run) p).1) : fileReads ops p' ≤ fileReads ops p :=
  Keeps.fileReads_le ops hle (Keeps.opened hopen) (Keeps.opened hopen') hio

theorem larger_cache_reads_less_two : ∃ p p', openInner [] 1 = .ok p ∧ openInner [] 2 = .ok p' ∧
    fileReads [.allocate, .allocate, .read 0, .read 1] p' ≤ fileReads [.allocate, .allocate, .read 0, .read 1] p := by
  have hopen : openInner [] 1 = .ok { file := [], capacity := 1, pages := 0 } := rfl
  have hopen' : openInner [] 2 = .ok { file := [], capacity := 2, pages := 0 } := rfl
  have hio : ∀ results, Flushes [.allocate, .allocate, .read 0, .read 1] results := by
    rintro results ⟨op, r⟩ hmem rfl
    have hop := (List.of_mem_zip hmem).1
    simp at hop
  exact ⟨_, _, hopen, hopen', larger_cache_reads_less hopen hopen' (by decide) _ (hio _)⟩

end Runs

end Pager

end NutDb
