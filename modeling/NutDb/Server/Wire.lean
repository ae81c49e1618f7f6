/-
  The wire protocol of the cluster (`src/server.rs`, `src/client.rs`).

  A request is a line of fields; keys and values are written as hexadecimal
  bytes.  `Request.line` is the line that the sender of a request writes and
  `Request.parse` what `Server::handle` makes of a line before it acts.

  A line is split at white space, so an empty field leaves no trace in it:
  `wire_roundtrip` says that a request is read back exactly if it has no empty
  field.  The `REPL` of a deletion always has one.
-/
import NutDb.Lib.Text

namespace NutDb.Server

open Lib

/-! ## Fields -/

/-- `invalid`, of the server (`InvalidData`) and of the client (`InvalidInput`). -/
def invalid {α : Type} (kind : ErrorKind) (message : String) : Res α := Res.fail kind message

def DIGITS : List Char :=
  ['0', '1', '2', '3', '4', '5', '6', '7', '8', '9', 'a', 'b', 'c', 'd', 'e', 'f']

/-- The hexadecimal digit of the low four bits of a byte. -/
def hexDigit (byte : UInt8) : Char := DIGITS.getD (byte &&& 15).toNat '0'

/-- `hex`. -/
def hex (bytes : Bytes) : String :=
  String.ofList (bytes.flatMap fun byte : UInt8 => [hexDigit (byte >>> 4), hexDigit byte])

/-- `digit`. -/
def digit (kind : ErrorKind) (byte : UInt8) : Res UInt8 :=
  if 0x30 ≤ byte ∧ byte ≤ 0x39 then .ok (byte - 0x30)
  else if 0x61 ≤ byte ∧ byte ≤ 0x66 then .ok (byte - 0x61 + 10)
  else invalid kind "cluster: invalid hex"

/-- The bytes of pairs of digits (`chunks_exact(2)` leaves out a last single digit). -/
def unhexPairs (kind : ErrorKind) : Bytes → Res Bytes
  | high :: low :: rest => do
    let h ← digit kind high
    let l ← digit kind low
    let bytes ← unhexPairs kind rest
    return (h <<< 4 ||| l) :: bytes
  | _ => .ok []

/-- `unhex_string`. -/
def unhexString (kind : ErrorKind) (value : String) : Res String := do
  if (utf8 value).length % 2 ≠ 0 then invalid kind "cluster: odd hex length"
  else
    let bytes ← unhexPairs kind (utf8 value)
    Res.ofOption kind "cluster: value is not UTF-8" (ofUtf8 bytes)

/-- `parse_u64`. -/
def parseU64 (value : String) : Res U64 :=
  Res.ofOption .invalidData "cluster: expected unsigned integer" (U64.parse value)

/-- `parse_bool`. -/
def parseBool (value : String) : Res Bool :=
  match value with
  | "0" => .ok false
  | "1" => .ok true
  | _ => invalid .invalidData "cluster: expected 0 or 1"

/-- `u8::from(flag)`, printed. -/
def printBool (flag : Bool) : String := if flag then "1" else "0"

section Fields
variable (kind : ErrorKind)

theorem toNat_and_15 (byte : UInt8) : (byte &&& 15).toNat < 16 := by
  rw [UInt8.toNat_and]
  exact lt_of_le_of_lt Nat.and_le_right (by decide)

/-- The digits are lower case hexadecimal. -/
theorem hexDigit_mem (byte : UInt8) : hexDigit byte ∈ DIGITS := by
  unfold hexDigit
  rw [List.getD_eq_getElem _ _ (by simpa [DIGITS] using toNat_and_15 byte)]
  exact List.getElem_mem _

theorem mem_hex {bytes : Bytes} {c : Char} (h : c ∈ (hex bytes).toList) : c ∈ DIGITS := by
  rw [hex, String.toList_ofList, List.mem_flatMap] at h
  obtain ⟨byte, -, hc⟩ := h
  simp only [List.mem_cons, List.not_mem_nil, or_false] at hc
  rcases hc with rfl | rfl
  · exact hexDigit_mem _
  · exact hexDigit_mem _

theorem isWhitespace_digits {c : Char} (h : c ∈ DIGITS) : isWhitespace c = false := by
  have hall : DIGITS.all (fun c => !isWhitespace c) = true := by decide
  simpa using List.all_eq_true.1 hall c h

theorem isWord_hex (bytes : Bytes) : IsWord (hex bytes) := fun _ hc =>
  isWhitespace_digits (mem_hex hc)

theorem notMem_hex {c : Char} (h : c ∉ DIGITS) (bytes : Bytes) : c ∉ (hex bytes).toList :=
  fun hc => h (mem_hex hc)

theorem hex_eq_empty {bytes : Bytes} : hex bytes = "" ↔ bytes = [] := by
  rw [hex, ← String.toList_inj, String.toList_ofList]
  cases bytes with
  | nil => simp
  | cons byte rest => simp

theorem toNat_digits {c : Char} (h : c ∈ DIGITS) : c.toNat < 128 := by
  have hall : DIGITS.all (fun c => c.toNat < 128) = true := by decide
  simpa using List.all_eq_true.1 hall c h

theorem utf8_ofList_digits {cs : List Char} (h : ∀ c ∈ cs, c ∈ DIGITS) :
    utf8 (String.ofList cs) = cs.map fun c => UInt8.ofNat c.toNat :=
  utf8_ascii fun c hc => toNat_digits (h c hc)

/-- What holds of all numbers below 256 holds of all bytes. -/
theorem forall_byte {p : UInt8 → Prop} (h : ∀ n < 256, p (UInt8.ofNat n)) (byte : UInt8) : p byte := by
  have hb := h byte.toNat byte.toNat_lt
  rwa [UInt8.ofNat_toNat] at hb

theorem digit_hexDigit (byte : UInt8) :
    digit kind (UInt8.ofNat (hexDigit byte).toNat) = .ok (byte &&& 15) := by
  have h : ∀ d < 16, digit kind (UInt8.ofNat (DIGITS.getD d '0').toNat) = .ok (UInt8.ofNat d) := by
    intro d hd
    interval_cases d <;> rfl
  have hd := h (byte &&& 15).toNat (toNat_and_15 byte)
  rwa [UInt8.ofNat_toNat] at hd

theorem byte_halves (byte : UInt8) : (byte >>> 4 &&& 15) <<< 4 ||| (byte &&& 15) = byte :=
  forall_byte (p := fun b => (b >>> 4 &&& 15) <<< 4 ||| (b &&& 15) = b) (by decide +kernel) byte

theorem unhexPairs_digits (bytes : Bytes) :
    unhexPairs kind ((bytes.flatMap fun byte : UInt8 => [hexDigit (byte >>> 4), hexDigit byte]).map
      fun c => UInt8.ofNat c.toNat) = .ok bytes := by
  induction bytes with
  | nil => rfl
  | cons byte rest ih =>
    rw [List.flatMap_cons, List.map_append]
    simp only [List.map_cons, List.map_nil, List.cons_append, List.nil_append, unhexPairs,
      digit_hexDigit, ih, Res.ok_bind, byte_halves]
    rfl

theorem utf8_hex (bytes : Bytes) : utf8 (hex bytes) =
    (bytes.flatMap fun byte : UInt8 => [hexDigit (byte >>> 4), hexDigit byte]).map
      fun c => UInt8.ofNat c.toNat :=
  utf8_ofList_digits fun c hc => mem_hex (by rwa [hex, String.toList_ofList])

/-- **A text survives as hexadecimal bytes.** -/
@[simp] theorem unhexString_hex (s : String) : unhexString kind (hex (utf8 s)) = .ok s := by
  have heven : (utf8 (hex (utf8 s))).length % 2 = 0 := by
    rw [utf8_hex, List.length_map, List.length_flatMap]
    simp
  rw [unhexString, if_neg (by simp [heven]), utf8_hex, unhexPairs_digits]
  simp

@[simp] theorem parseU64_print (n : U64) : parseU64 n.print = .ok n := by
  rw [parseU64, U64.parse_print]
  rfl

@[simp] theorem parseBool_print (flag : Bool) : parseBool (printBool flag) = .ok flag := by
  cases flag <;> rfl

end Fields

/-! ## Requests -/

/-- The requests that a server answers. -/
inductive Request where
  | ping
  | dump
  | repl (key : String) (version : U64) (tombstone : Bool) (value : String)
  | commit (key : String) (version : U64)
  | put (key value : String)
  | delete (key : String)
  | get (key : String)
  | adminBlock (peer : U64)
  | adminHeal
  deriving DecidableEq, Repr

namespace Request

/-- The line that the sender writes: `alive_peers`, `catch_up` and `client_write` of the server,
    `put`, `delete`, `get`, `block` and `heal` of the client. -/
def line : Request → String
  | ping => "PING"
  | dump => "DUMP"
  | repl key version tombstone value =>
    "REPL " ++ hex (utf8 key) ++ " " ++ version.print ++ " " ++ printBool tombstone ++ " " ++
      hex (utf8 value)
  | commit key version => "COMMIT " ++ hex (utf8 key) ++ " " ++ version.print
  | put key value => "PUT " ++ hex (utf8 key) ++ " " ++ hex (utf8 value)
  | delete key => "DELETE " ++ hex (utf8 key)
  | get key => "GET " ++ hex (utf8 key)
  | adminBlock peer => "ADMIN_BLOCK " ++ peer.print
  | adminHeal => "ADMIN_HEAL"

/-- The patterns of `handle`, with the arguments that each of them decodes. -/
def ofParts : List String → Res Request
  | ["PING"] => .ok ping
  | ["DUMP"] => .ok dump
  | ["REPL", key, version, tombstone, value] => do
    let key ← unhexString .invalidData key
    let value ← unhexString .invalidData value
    let version ← parseU64 version
    let tombstone ← parseBool tombstone
    return repl key version tombstone value
  | ["COMMIT", key, version] => do
    let key ← unhexString .invalidData key
    let version ← parseU64 version
    return commit key version
  | ["PUT", key, value] => do
    let key ← unhexString .invalidData key
    let value ← unhexString .invalidData value
    return put key value
  | ["DELETE", key] => do
    let key ← unhexString .invalidData key
    return delete key
  | ["GET", key] => do
    let key ← unhexString .invalidData key
    return get key
  | ["ADMIN_BLOCK", peer] => do
    let peer ← parseU64 peer
    return adminBlock peer
  | ["ADMIN_HEAL"] => .ok adminHeal
  | _ => invalid .invalidData "cluster: unknown request"

/-- What `handle` makes of a frame before it acts on it. -/
def parse (request : Bytes) : Res Request := do
  let request ← Res.ofOption .invalidData "cluster: request is not UTF-8" (ofUtf8 request)
  ofParts (splitWhitespace request)

/-- The keys and values that a request carries. -/
def texts : Request → List String
  | ping | dump | adminBlock _ | adminHeal => []
  | repl key _ _ value | put key value => [key, value]
  | commit key _ | delete key | get key => [key]

theorem parse_utf8 (s : String) : parse (utf8 s) = ofParts (splitWhitespace s) := by
  rw [parse, ofUtf8_utf8]
  rfl

/-! ## Round trip -/

section RoundTrip
variable (key value : String) (version : U64) (tombstone : Bool)

/-- The pieces that a field leaves in a line. -/
theorem splitWhitespace_hex (s : String) :
    splitWhitespace (hex (utf8 s)) = if s = "" then [] else [hex (utf8 s)] := by
  rw [splitWhitespace_word (isWord_hex _)]
  by_cases hs : s = ""
  · rw [if_pos hs, if_pos (hex_eq_empty.2 (by rw [hs]; rfl))]
  · rw [if_neg hs, if_neg fun h => hs (utf8_injective ((hex_eq_empty.1 h).trans rfl))]

theorem splitWhitespace_print (n : U64) : splitWhitespace n.print = [n.print] := by
  rw [splitWhitespace_word n.isWord_print, if_neg n.print_ne_empty]

theorem splitWhitespace_printBool (flag : Bool) :
    splitWhitespace (printBool flag) = [printBool flag] := by
  cases flag <;> decide

theorem parts_repl : splitWhitespace (repl key version tombstone value).line =
    "REPL" :: (splitWhitespace (hex (utf8 key)) ++
      version.print :: printBool tombstone :: splitWhitespace (hex (utf8 value))) := by
  change splitWhitespace ("REPL" ++ " " ++ hex (utf8 key) ++ " " ++ version.print ++ " " ++
    printBool tombstone ++ " " ++ hex (utf8 value)) = _
  simp only [splitWhitespace_append, splitWhitespace_print, splitWhitespace_printBool,
    List.append_assoc, List.cons_append, List.nil_append]
  rfl

theorem parts_commit : splitWhitespace (commit key version).line =
    "COMMIT" :: (splitWhitespace (hex (utf8 key)) ++ [version.print]) := by
  change splitWhitespace ("COMMIT" ++ " " ++ hex (utf8 key) ++ " " ++ version.print) = _
  simp only [splitWhitespace_append, splitWhitespace_print, List.append_assoc]
  rfl

theorem parts_put : splitWhitespace (put key value).line =
    "PUT" :: (splitWhitespace (hex (utf8 key)) ++ splitWhitespace (hex (utf8 value))) := by
  change splitWhitespace ("PUT" ++ " " ++ hex (utf8 key) ++ " " ++ hex (utf8 value)) = _
  simp only [splitWhitespace_append, List.append_assoc]
  rfl

theorem parts_delete : splitWhitespace (delete key).line =
    "DELETE" :: splitWhitespace (hex (utf8 key)) := by
  change splitWhitespace ("DELETE" ++ " " ++ hex (utf8 key)) = _
  rw [splitWhitespace_append]
  rfl

theorem parts_get : splitWhitespace (get key).line =
    "GET" :: splitWhitespace (hex (utf8 key)) := by
  change splitWhitespace ("GET" ++ " " ++ hex (utf8 key)) = _
  rw [splitWhitespace_append]
  rfl

theorem parts_adminBlock (peer : U64) : splitWhitespace (adminBlock peer).line =
    ["ADMIN_BLOCK", peer.print] := by
  change splitWhitespace ("ADMIN_BLOCK" ++ " " ++ peer.print) = _
  rw [splitWhitespace_append, splitWhitespace_print]
  rfl

/-- A request without empty fields is read back. -/
theorem parse_line {r : Request} (h : "" ∉ r.texts) : parse (utf8 r.line) = .ok r := by
  rw [parse_utf8]
  cases r with
  | ping => rfl
  | dump => rfl
  | adminHeal => rfl
  | adminBlock peer =>
    rw [parts_adminBlock]
    simp [ofParts]
  | repl key version tombstone value =>
    simp only [texts, List.mem_cons, List.not_mem_nil, or_false, not_or] at h
    rw [parts_repl, splitWhitespace_hex, splitWhitespace_hex, if_neg (Ne.symm h.1),
      if_neg (Ne.symm h.2)]
    simp [ofParts]
  | commit key version =>
    simp only [texts, List.mem_cons, List.not_mem_nil, or_false] at h
    rw [parts_commit, splitWhitespace_hex, if_neg (Ne.symm h)]
    simp [ofParts]
  | put key value =>
    simp only [texts, List.mem_cons, List.not_mem_nil, or_false, not_or] at h
    rw [parts_put, splitWhitespace_hex, splitWhitespace_hex, if_neg (Ne.symm h.1),
      if_neg (Ne.symm h.2)]
    simp [ofParts]
  | delete key =>
    simp only [texts, List.mem_cons, List.not_mem_nil, or_false] at h
    rw [parts_delete, splitWhitespace_hex, if_neg (Ne.symm h)]
    simp [ofParts]
  | get key =>
    simp only [texts, List.mem_cons, List.not_mem_nil, or_false] at h
    rw [parts_get, splitWhitespace_hex, if_neg (Ne.symm h)]
    simp [ofParts]

/-- A request with an empty field is not known. -/
theorem parse_line_of_empty {r : Request} (h : "" ∈ r.texts) :
    parse (utf8 r.line) = invalid .invalidData "cluster: unknown request" := by
  rw [parse_utf8]
  cases r with
  | ping => exact absurd h List.not_mem_nil
  | dump => exact absurd h List.not_mem_nil
  | adminHeal => exact absurd h List.not_mem_nil
  | adminBlock peer => exact absurd h List.not_mem_nil
  | repl key version tombstone value =>
    rw [parts_repl, splitWhitespace_hex, splitWhitespace_hex]
    by_cases hk : key = ""
    · rw [if_pos hk]
      split <;> rfl
    · have hv : value = "" := by simpa [texts, Ne.symm hk, eq_comm] using h
      rw [if_neg hk, if_pos hv]
      rfl
  | commit key version =>
    have hk : key = "" := by simpa [texts, eq_comm] using h
    rw [parts_commit, splitWhitespace_hex, if_pos hk]
    rfl
  | put key value =>
    rw [parts_put, splitWhitespace_hex, splitWhitespace_hex]
    by_cases hk : key = ""
    · rw [if_pos hk]
      split <;> rfl
    · have hv : value = "" := by simpa [texts, Ne.symm hk, eq_comm] using h
      rw [if_neg hk, if_pos hv]
      rfl
  | delete key =>
    have hk : key = "" := by simpa [texts, eq_comm] using h
    rw [parts_delete, splitWhitespace_hex, if_pos hk]
    rfl
  | get key =>
    have hk : key = "" := by simpa [texts, eq_comm] using h
    rw [parts_get, splitWhitespace_hex, if_pos hk]
    rfl

/-- A line is read back exactly if no field of its request is empty. -/
theorem parse_line_iff (r : Request) : parse (utf8 r.line) = .ok r ↔ "" ∉ r.texts := by
  constructor
  · intro h hempty
    rw [parse_line_of_empty hempty] at h
    cases h
  · exact parse_line

end RoundTrip

end Request

/-! ## Answers -/

/-- The answer of `client_read` for a value. -/
def valueLine (value : String) : String := "VALUE " ++ hex (utf8 value)

/-- What `ClusterClient::get` makes of an answer. -/
def readAnswer (response : String) : Res (Option String) :=
  if response = "NIL" then .ok none
  else
    match stripPrefix "VALUE " response with
    | some value => (unhexString .invalidInput value).map some
    | none => Res.fail .timedOut "cluster: read remained indeterminate"

theorem readAnswer_valueLine (value : String) : readAnswer (valueLine value) = .ok (some value) := by
  have hne : valueLine value ≠ "NIL" := by
    intro h
    have hlist := congrArg String.toList h
    rw [valueLine, String.toList_append] at hlist
    cases hlist
  rw [readAnswer, if_neg hne, valueLine, stripPrefix_append]
  simp only [unhexString_hex]
  rfl

/-- **The wire protocol**: the line of a request is read back as that request exactly if the
    request has no empty key or value; the answer with a value always gives the value. -/
theorem wire_roundtrip (r : Request) (value : String) :
    (Request.parse (utf8 r.line) = .ok r ↔ "" ∉ r.texts) ∧
      readAnswer (valueLine value) = .ok (some value) :=
  ⟨Request.parse_line_iff r, readAnswer_valueLine value⟩

/-- The line that replicates the deletion of a key is not read back. -/
theorem not_parse_tombstone :
    ¬ Request.parse (utf8 (Request.repl "k" 1 true "").line) = .ok (.repl "k" 1 true "") := by
  rw [Request.parse_line_iff]
  decide

end NutDb.Server
