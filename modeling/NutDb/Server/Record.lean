/-
  The replicated records of a server (`src/server.rs`).

  The store of a server maps keys to encoded records.  `merge` keeps the newer
  of two records of a key, `dump` lists the committed ones.  Here a store is the
  map that it represents (`set_map`, `get_map`, `keys_map`); `Decodes` gives the
  records behind the encodings, and every operation has one lemma that says what
  it does to them.
-/
import NutDb.Server.Wire
import NutDb.Store

namespace NutDb.Server

open Lib

/-- `ReplicaValue`. -/
structure ReplicaValue where
  version : U64
  tombstone : Bool
  committed : Bool
  value : String
  deriving DecidableEq, Repr

/-- `encode_record`. -/
def encodeRecord (record : ReplicaValue) : String :=
  record.version.print ++ ":" ++ printBool record.tombstone ++ ":" ++ printBool record.committed ++
    ":" ++ hex (utf8 record.value)

/-- `decode_record`. -/
def decodeRecord (encoded : String) : Res ReplicaValue := do
  let parts := splitn ':' 4 encoded
  let part (i : ℕ) : Res String := Res.ofOption .invalidData "cluster: bad record" parts[i]?
  let version ← part 0 >>= parseU64
  let tombstone ← part 1 >>= parseBool
  let committed ← part 2 >>= parseBool
  let value ← part 3 >>= unhexString .invalidData
  return ⟨version, tombstone, committed, value⟩

/-- A row of `dump`. -/
def dumpRow (key : String) (record : ReplicaValue) : String :=
  hex (utf8 key) ++ "," ++ record.version.print ++ "," ++ printBool record.tombstone ++ "," ++
    printBool record.committed ++ "," ++ hex (utf8 record.value)

/-- The record in a row of a dump. -/
def decodeRow (row : String) : Res (String × ReplicaValue) :=
  match split ',' row with
  | [key, version, tombstone, committed, value] => do
    let key ← unhexString .invalidData key
    let version ← parseU64 version
    let tombstone ← parseBool tombstone
    let committed ← parseBool committed
    let value ← unhexString .invalidData value
    return (key, ⟨version, tombstone, committed, value⟩)
  | _ => invalid .invalidData "cluster: malformed dump"

/-- `decode_dump`. -/
def decodeDump (dump : String) : Res (List (String × ReplicaValue)) :=
  if dump = "" then .ok [] else (split ';' dump).mapM decodeRow

/-! ## Round trips -/

section Codec
variable (key : String) (record : ReplicaValue)

theorem notMem_print {c : Char} (h : c.isDigit = false) (n : U64) : c ∉ n.print.toList := by
  intro hc
  rw [U64.isDigit_print n hc] at h
  cases h

theorem notMem_printBool {c : Char} (h : c.isDigit = false) (flag : Bool) :
    c ∉ (printBool flag).toList := by
  have hdigits : ∀ c ∈ (printBool flag).toList, c.isDigit = true := by
    cases flag <;> simp [printBool]
  intro hc
  rw [hdigits c hc] at h
  cases h

/-- **A record is read back as encoded.** -/
@[simp] theorem decodeRecord_encodeRecord : decodeRecord (encodeRecord record) = .ok record := by
  have hparts : splitn ':' 4 (encodeRecord record) = [record.version.print,
      printBool record.tombstone, printBool record.committed, hex (utf8 record.value)] := by
    have hassoc : encodeRecord record = record.version.print ++ String.singleton ':' ++
        (printBool record.tombstone ++ String.singleton ':' ++
          (printBool record.committed ++ String.singleton ':' ++ hex (utf8 record.value))) := by
      simp only [encodeRecord, String.append_assoc]
      rfl
    rw [hassoc, splitn_append _ (notMem_print (by decide) _),
      splitn_append _ (notMem_printBool (by decide) _),
      splitn_append _ (notMem_printBool (by decide) _)]
    rfl
  simp only [decodeRecord, hparts]
  simp

theorem dumpRow_eq : dumpRow key record = hex (utf8 key) ++ String.singleton ',' ++
    (record.version.print ++ String.singleton ',' ++ (printBool record.tombstone ++
      String.singleton ',' ++ (printBool record.committed ++ String.singleton ',' ++
        hex (utf8 record.value)))) := by
  simp only [dumpRow, String.append_assoc]
  rfl

@[simp] theorem decodeRow_dumpRow : decodeRow (dumpRow key record) = .ok (key, record) := by
  have hparts : split ',' (dumpRow key record) = [hex (utf8 key), record.version.print,
      printBool record.tombstone, printBool record.committed, hex (utf8 record.value)] := by
    rw [dumpRow_eq, split_append (notMem_hex (by decide) _),
      split_append (notMem_print (by decide) _), split_append (notMem_printBool (by decide) _),
      split_append (notMem_printBool (by decide) _), split_of_notMem (notMem_hex (by decide) _)]
  rw [decodeRow, hparts]
  simp

theorem semicolon_notMem_dumpRow : ';' ∉ (dumpRow key record).toList := by
  rw [dumpRow_eq]
  simp only [String.toList_append, String.toList_singleton, List.mem_append, List.mem_singleton, not_or]
  exact ⟨⟨notMem_hex (by decide) _, by decide⟩, ⟨notMem_print (by decide) _, by decide⟩,
    ⟨notMem_printBool (by decide) _, by decide⟩, ⟨notMem_printBool (by decide) _, by decide⟩,
    notMem_hex (by decide) _⟩

theorem dumpRow_ne_empty : dumpRow key record ≠ "" := by
  intro h
  have hlist := congrArg String.toList h
  rw [dumpRow_eq] at hlist
  simp at hlist

theorem mapM_decodeRow (rows : List (String × ReplicaValue)) :
    (rows.map fun e => dumpRow e.1 e.2).mapM decodeRow = .ok rows := by
  induction rows with
  | nil => rfl
  | cons e rows ih =>
    rw [List.map_cons, List.mapM_cons, decodeRow_dumpRow, ih]
    rfl

/-- **A dump is read back row by row.** -/
theorem decodeDump_rows (rows : List (String × ReplicaValue)) :
    decodeDump (";".intercalate (rows.map fun e => dumpRow e.1 e.2)) = .ok rows := by
  by_cases hrows : rows = []
  · rw [hrows]
    rfl
  have hsplit : split ';' (";".intercalate (rows.map fun e => dumpRow e.1 e.2)) =
      rows.map fun e => dumpRow e.1 e.2 := by
    refine split_intercalate (mt List.map_eq_nil_iff.1 hrows) fun row hrow => ?_
    obtain ⟨e, -, rfl⟩ := List.mem_map.1 hrow
    exact semicolon_notMem_dumpRow e.1 e.2
  have hne : ";".intercalate (rows.map fun e => dumpRow e.1 e.2) ≠ "" := by
    intro h
    obtain ⟨e, rest, rfl⟩ := List.exists_cons_of_ne_nil hrows
    rw [h, List.map_cons] at hsplit
    exact dumpRow_ne_empty e.1 e.2 (List.cons.inj hsplit).1.symm
  rw [decodeDump, if_neg hne, hsplit, mapM_decodeRow]

end Codec

/-! ## The store of a server -/

/-- The map of a store: encoded records by key, in ascending order. -/
abbrev Records := List (String × String)

/-- `Store::set`, on the map: the log rejects a record that is too long. -/
def setRecord (m : Records) (key encoded : String) : Res Records := do
  let _ ← Wal.append (Command.set key encoded).encode
  return insertEntry key encoded m

/-- `read_record`. -/
def readRecord (m : Records) (key : String) : Res (Option ReplicaValue) :=
  match m.lookup key with
  | some encoded => (decodeRecord encoded).map some
  | none => .ok none

/-- Whether `merge` replaces the current record by the incoming one. -/
def replaces (current incoming : ReplicaValue) : Bool :=
  incoming.version > current.version ||
    (incoming.version == current.version && incoming.committed && !current.committed)

/-- `merge`. -/
def merge (m : Records) (key : String) (incoming : ReplicaValue) : Res Records := do
  let current ← readRecord m key
  if (current.map fun current => replaces current incoming).getD true then
    setRecord m key (encodeRecord incoming)
  else return m

/-- The `COMMIT` of `handle`. -/
def commitRecord (m : Records) (key : String) (version : U64) : Res Records := do
  match ← readRecord m key with
  | some record =>
    if record.version = version then
      setRecord m key (encodeRecord { record with committed := true })
    else return m
  | none => return m

/-- The rows that the loop of `dump` collects. -/
def dumpRows (m : Records) : List String → Res (List String)
  | [] => .ok []
  | key :: keys => do
    let record ← readRecord m key
    let record ← Res.ofOption .invalidData "cluster: missing stored record" record
    let rows ← dumpRows m keys
    return if record.committed then dumpRow key record :: rows else rows

/-- `dump`. -/
def dump (m : Records) : Res String := do
  let rows ← dumpRows m (m.map Prod.fst)
  return ";".intercalate rows

/-- The loop of `catch_up` over the records of a dump: it stops at the first that the store
    rejects, with the earlier ones merged. -/
def mergeAll (m : Records) : List (String × ReplicaValue) → Records × Res Unit
  | [] => (m, .ok ())
  | (key, record) :: rest =>
    match merge m key record with
    | .ok m' => mergeAll m' rest
    | .error e => (m, .error e)

section Map
variable {s : Store} {m : Records}

/-- The map is what the store keeps. -/
theorem set_map (h : s.data.Represents m) (key encoded : String) :
    (∀ e, setRecord m key encoded = .error e →
      (s.set key encoded).result = .error e ∧ (s.set key encoded).store = s) ∧
    ∀ m', setRecord m key encoded = .ok m' →
      (s.set key encoded).result = .ok () ∧ (s.set key encoded).store.data.Represents m' := by
  obtain ⟨data', hdata, hrep⟩ := Store.applyMemory_spec (.set key encoded) h
  unfold setRecord Store.set Store.apply
  cases happend : Wal.append (Command.set key encoded).encode with
  | error e =>
    refine ⟨fun e' he => ?_, fun m' hm => ?_⟩
    · cases he
      exact ⟨rfl, rfl⟩
    · cases hm
  | ok frame =>
    refine ⟨fun e' he => ?_, fun m' hm => ?_⟩
    · cases he
    · cases hm
      simp only [hdata]
      exact ⟨trivial, hrep⟩

theorem get_map (h : s.data.Represents m) (key : String) : s.get key = .ok (m.lookup key) :=
  BTreeIndex.get_spec h

theorem keys_map (h : s.data.Represents m) : s.data.keys = .ok (m.map Prod.fst) :=
  BTreeIndex.keys_spec h

end Map

/-! ## What the operations do to the records -/

/-- The records behind the encodings of a store. -/
structure Decodes (m : Records) (f : String → Option ReplicaValue) : Prop where
  sorted : SortedKeys m
  read : ∀ key, readRecord m key = .ok (f key)

/-- The newer of two records, as `merge` decides. -/
def newer : Option ReplicaValue → ReplicaValue → ReplicaValue
  | none, incoming => incoming
  | some current, incoming => if replaces current incoming then incoming else current

/-- The committed records of the given keys. -/
def committedRows (f : String → Option ReplicaValue) (keys : List String) : List (String × ReplicaValue) :=
  keys.filterMap fun key => ((f key).filter ReplicaValue.committed).map (Prod.mk key)

theorem mem_committedRows {f : String → Option ReplicaValue} {keys : List String} {key : String}
    {record : ReplicaValue} : (key, record) ∈ committedRows f keys ↔
      key ∈ keys ∧ f key = some record ∧ record.committed = true := by
  simp only [committedRows, List.mem_filterMap, Option.map_eq_some_iff, Option.filter_eq_some_iff,
    Prod.mk.injEq]
  constructor
  · rintro ⟨key', hmem, record', ⟨hf, hc⟩, rfl, rfl⟩
    exact ⟨hmem, hf, hc⟩
  · rintro ⟨hmem, hf, hc⟩
    exact ⟨key, hmem, record, ⟨hf, hc⟩, rfl, rfl⟩

theorem sortedKeys_committedRows {f : String → Option ReplicaValue} {keys : List String}
    (h : keys.Pairwise (· < ·)) : SortedKeys (committedRows f keys) := by
  refine List.Pairwise.filterMap _ (fun key key' hlt e he e' he' => ?_) h
  obtain ⟨record, -, rfl⟩ := Option.map_eq_some_iff.1 he
  obtain ⟨record', -, rfl⟩ := Option.map_eq_some_iff.1 he'
  exact hlt

namespace Decodes
variable {m m' : Records} {f : String → Option ReplicaValue} {key : String} {record : ReplicaValue}

theorem empty : Decodes [] fun _ => none := ⟨List.Pairwise.nil, fun _ => rfl⟩

theorem set (h : Decodes m f) (hset : setRecord m key (encodeRecord record) = .ok m') :
    Decodes m' (Function.update f key (some record)) := by
  obtain ⟨frame, -, hm⟩ := Res.bind_eq_ok.1 hset
  cases hm
  refine ⟨sortedKeys_insertEntry h.sorted, fun k => ?_⟩
  rw [readRecord, lookup_insertEntry]
  by_cases hk : k = key
  · rw [if_pos hk, hk, Function.update_self]
    simp only [decodeRecord_encodeRecord]
    rfl
  · rw [if_neg hk, Function.update_of_ne hk]
    exact h.read k

/-- **`merge` keeps the newer record.** -/
theorem merge (h : Decodes m f) (hmerge : Server.merge m key record = .ok m') :
    Decodes m' (Function.update f key (some (newer (f key) record))) := by
  rw [Server.merge, h.read key, Res.ok_bind] at hmerge
  cases hf : f key with
  | none =>
    rw [hf] at hmerge
    exact h.set hmerge
  | some current =>
    rw [hf] at hmerge
    change (if replaces current record = true then _ else _) = _ at hmerge
    by_cases hr : replaces current record = true
    · rw [if_pos hr] at hmerge
      rw [newer, if_pos hr]
      exact h.set hmerge
    · rw [if_neg hr] at hmerge
      cases hmerge
      rw [newer, if_neg hr, ← hf, Function.update_eq_self]
      exact h

/-- `COMMIT` marks the record of that version. -/
theorem commitRecord (h : Decodes m f) {version : U64}
    (hcommit : Server.commitRecord m key version = .ok m') :
    (∃ record, f key = some record ∧ record.version = version ∧
      Decodes m' (Function.update f key (some { record with committed := true }))) ∨
    (∀ record, f key = some record → record.version ≠ version) ∧ m' = m := by
  rw [Server.commitRecord, h.read key, Res.ok_bind] at hcommit
  cases hf : f key with
  | none =>
    rw [hf] at hcommit
    cases hcommit
    exact Or.inr ⟨fun record hrec => (nomatch hrec), rfl⟩
  | some record =>
    rw [hf] at hcommit
    change (if record.version = version then _ else _) = _ at hcommit
    by_cases hv : record.version = version
    · rw [if_pos hv] at hcommit
      exact Or.inl ⟨record, rfl, hv, h.set hcommit⟩
    · rw [if_neg hv] at hcommit
      cases hcommit
      refine Or.inr ⟨fun record' hrec => ?_, rfl⟩
      cases hrec
      exact hv

theorem dumpRows (h : Decodes m f) {keys : List String} (hkeys : ∀ k ∈ keys, (f k).isSome) :
    Server.dumpRows m keys = .ok ((committedRows f keys).map fun e => dumpRow e.1 e.2) := by
  induction keys with
  | nil => rfl
  | cons key keys ih =>
    have hrows := ih fun k hk => hkeys k (List.mem_cons_of_mem _ hk)
    obtain ⟨record, hrecord⟩ := Option.isSome_iff_exists.1 (hkeys key List.mem_cons_self)
    have hloop : Server.dumpRows m (key :: keys) =
        .ok (if record.committed then
            dumpRow key record :: (committedRows f keys).map (fun e => dumpRow e.1 e.2)
          else (committedRows f keys).map fun e => dumpRow e.1 e.2) := by
      rw [Server.dumpRows, h.read key, hrecord, hrows]
      rfl
    by_cases hc : record.committed = true
    · have hcons : committedRows f (key :: keys) = (key, record) :: committedRows f keys :=
        List.filterMap_cons_some (by rw [hrecord, Option.filter_some_pos hc, Option.map_some])
      rw [hloop, if_pos hc, hcons]
      rfl
    · have hcons : committedRows f (key :: keys) = committedRows f keys := by
        rw [Bool.not_eq_true] at hc
        exact List.filterMap_cons_none (by rw [hrecord, Option.filter_some_neg hc, Option.map_none])
      rw [hloop, if_neg hc, hcons]

/-- The keys of the map are those with a record. -/
theorem mem_keys (h : Decodes m f) (k : String) : k ∈ m.map Prod.fst ↔ (f k).isSome := by
  have hread := h.read k
  have hkeys : k ∈ m.map Prod.fst ↔ (m.lookup k).isSome := by
    rw [lookup_isSome_iff, List.mem_map]
    constructor
    · rintro ⟨⟨_, v⟩, hv, rfl⟩
      exact ⟨v, hv⟩
    · rintro ⟨v, hv⟩
      exact ⟨(k, v), hv, rfl⟩
  rw [hkeys]
  unfold readRecord at hread
  cases hm : m.lookup k with
  | none =>
    rw [hm] at hread
    simp [← Except.ok.inj hread]
  | some encoded =>
    simp only [hm] at hread
    cases hd : decodeRecord encoded with
    | error e =>
      rw [hd] at hread
      cases hread
    | ok r =>
      rw [hd] at hread
      simp [← Except.ok.inj hread]

/-- **A dump has the committed records**, and is read back. -/
theorem dump_eq (h : Decodes m f) : ∃ text, Server.dump m = .ok text ∧
    decodeDump text = .ok (committedRows f (m.map Prod.fst)) := by
  refine ⟨_, ?_, decodeDump_rows _⟩
  rw [Server.dump, h.dumpRows fun k hk => (h.mem_keys k).1 hk]
  rfl

theorem dump (h : Decodes m f) : ∃ text rows, Server.dump m = .ok text ∧
    decodeDump text = .ok rows ∧ ∀ k r, (k, r) ∈ rows ↔ f k = some r ∧ r.committed = true := by
  obtain ⟨text, hdump, hdecode⟩ := h.dump_eq
  refine ⟨text, _, hdump, hdecode, fun k r => ?_⟩
  rw [mem_committedRows, h.mem_keys]
  constructor
  · rintro ⟨-, h1⟩
    exact h1
  · rintro ⟨h1, h2⟩
    exact ⟨by rw [h1]; rfl, h1, h2⟩

end Decodes

/-! ## Dumps of stores -/

/-- The records of a store whose values were written by `encode_record`. -/
theorem decodes_of_encoded {m : Records} (hsorted : SortedKeys m)
    (hencoded : ∀ e ∈ m, ∃ record, e.2 = encodeRecord record) : ∃ f, Decodes m f ∧
      ∀ key record, f key = some record ↔ (key, encodeRecord record) ∈ m := by
  have hread : ∀ key, ∃ r, readRecord m key = .ok r ∧
      ∀ record, r = some record ↔ (key, encodeRecord record) ∈ m := by
    intro key
    unfold readRecord
    cases hm : m.lookup key with
    | none =>
      refine ⟨none, rfl, fun record => ⟨fun h => (nomatch h), fun h => ?_⟩⟩
      rw [lookup_of_mem hsorted h] at hm
      cases hm
    | some encoded =>
      have hmem := mem_of_lookup hm
      obtain ⟨record, hrecord⟩ := hencoded _ hmem
      obtain rfl : encoded = encodeRecord record := hrecord
      refine ⟨some record, by simp only [decodeRecord_encodeRecord]; rfl, fun record' => ?_⟩
      constructor
      · intro h
        cases h
        exact hmem
      · intro h
        rw [lookup_of_mem hsorted h, Option.some.injEq] at hm
        have heq := congrArg decodeRecord hm
        rw [decodeRecord_encodeRecord, decodeRecord_encodeRecord] at heq
        rw [Except.ok.inj heq]
  choose f hf hmem using hread
  exact ⟨f, ⟨hsorted, hf⟩, hmem⟩

/-- **Dumps and records are read back without loss**, in the order of the keys. -/
theorem dump_lossless :
    (∀ m : Records, SortedKeys m → (∀ e ∈ m, ∃ record, e.2 = encodeRecord record) →
      ∃ text rows, dump m = .ok text ∧ decodeDump text = .ok rows ∧ SortedKeys rows ∧
        ∀ key record, (key, record) ∈ rows ↔ (key, encodeRecord record) ∈ m ∧ record.committed = true) ∧
    ∀ record, decodeRecord (encodeRecord record) = .ok record := by
  refine ⟨fun m hsorted hencoded => ?_, decodeRecord_encodeRecord⟩
  obtain ⟨f, hf, hmem⟩ := decodes_of_encoded hsorted hencoded
  obtain ⟨text, hdump, hdecode⟩ := hf.dump_eq
  refine ⟨text, _, hdump, hdecode, sortedKeys_committedRows (List.pairwise_map.2 hsorted), ?_⟩
  intro key record
  rw [mem_committedRows, hmem]
  constructor
  · rintro ⟨-, h⟩
    exact h
  · rintro ⟨h1, h2⟩
    exact ⟨List.mem_map_of_mem h1, h1, h2⟩

theorem dump_lossless_empty_key :
    ∃ text rows, dump [("", encodeRecord ⟨1, false, true, ""⟩), ("k", encodeRecord ⟨2, true, false, "v"⟩)] = .ok text ∧
      decodeDump text = .ok rows ∧ ("", ⟨1, false, true, ""⟩) ∈ rows := by
  have hencoded : ∀ e ∈ [("", encodeRecord ⟨1, false, true, ""⟩), ("k", encodeRecord ⟨2, true, false, "v"⟩)],
      ∃ record, e.2 = encodeRecord record := by
    simp
  have hlt : "" < "k" := by decide
  have hsorted : SortedKeys [("", encodeRecord ⟨1, false, true, ""⟩), ("k", encodeRecord ⟨2, true, false, "v"⟩)] :=
    List.pairwise_pair.2 hlt
  obtain ⟨text, rows, hdump, hdecode, -, hmem⟩ := dump_lossless.1 _ hsorted hencoded
  exact ⟨text, rows, hdump, hdecode, (hmem _ _).2 ⟨List.mem_cons_self, rfl⟩⟩

end NutDb.Server
