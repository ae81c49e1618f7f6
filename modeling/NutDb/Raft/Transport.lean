/-
  Frames on a connection, and the network in memory (`src/raft/transport.rs`).

  A connection delivers its bytes in pieces of any size.  `readFrame` reads the
  payloads of the frames that arrived whole, in their order, and then fails
  (`frames_delivered`): it never returns a part of a payload, or two as one.

  The network in memory holds the messages that are on their way.  None is lost or
  repeated, and those of separated nodes are refused (`transport_exact`).
-/
import NutDb.Lib.Act
import NutDb.Lib.Frames
import NutDb.Lib.Trace

namespace NutDb.Transport

open Lib

/-! ## Frames -/

/-- `MAX_FRAME`. -/
def MAX_FRAME : ℕ := 16 * 1024 * 1024

/-- The `w` big-endian bytes of `n`. -/
def be (w n : ℕ) : Bytes := (le w n).reverse

/-- The integer with the given big-endian bytes. -/
def ofBe (b : Bytes) : ℕ := ofLe b.reverse

/-- `write_frame`, on the bytes that were written so far. -/
def writeFrame (payload : Bytes) : Act Bytes Unit :=
  if 2 ^ 32 ≤ payload.length then Act.fail .invalidInput "raft: frame too large"
  else if payload.length > MAX_FRAME then Act.fail .invalidInput "raft: frame exceeds limit"
  else do
    Act.modify (· ++ be 4 payload.length)
    Act.modify (· ++ payload)

/-- What is still to be read from a connection, in the pieces in which it arrives; an empty piece
    is an interrupted read, which is tried again.  Behind the last piece, the connection ends. -/
abbrev Stream := List Bytes

/-- `read_exact`. -/
def fill : Stream → ℕ → Res Bytes × Stream
  | [], 0 => (.ok [], [])
  | [], _ + 1 => (Res.fail .unexpectedEof "failed to fill whole buffer", [])
  | piece :: rest, n =>
    if n ≤ piece.length then (.ok (piece.take n), piece.drop n :: rest)
    else
      match fill rest (n - piece.length) with
      | (.ok bytes, rest) => (.ok (piece ++ bytes), rest)
      | (.error e, rest) => (.error e, rest)

/-- `read_exact`, on the stream. -/
def readExact (n : ℕ) : Act Stream Bytes := fun s => fill s n

/-- `read_frame`. -/
def readFrame : Act Stream Bytes := do
  let header ← readExact 4
  if ofBe header > MAX_FRAME then Act.fail .invalidData "raft: incoming frame exceeds limit"
  else readExact (ofBe header)

/-- The frame of a payload. -/
def frame (payload : Bytes) : Bytes := be 4 payload.length ++ payload

/-- A payload that can be sent. -/
def Fits (payload : Bytes) : Prop := payload.length ≤ MAX_FRAME

instance : DecidablePred Fits := fun payload => inferInstanceAs (Decidable (payload.length ≤ MAX_FRAME))

/-- The error at the end of a stream: too few bytes are left, or a length beyond the limit. -/
def streamEnd (rest : Bytes) : Fault :=
  if 4 ≤ rest.length ∧ ofBe (rest.take 4) > MAX_FRAME then
    .io ⟨.invalidData, "raft: incoming frame exceeds limit"⟩
  else .io ⟨.unexpectedEof, "failed to fill whole buffer"⟩

@[simp] theorem length_be (w n : ℕ) : (be w n).length = w := by rw [be, List.length_reverse, length_le]

theorem ofBe_be {w n : ℕ} (h : n < 256 ^ w) : ofBe (be w n) = n := by
  rw [ofBe, be, List.reverse_reverse, ofLe_le_of_lt h]

theorem be_ofBe (b : Bytes) : be b.length (ofBe b) = b := by
  have h := le_ofLe b.reverse
  rw [List.length_reverse] at h
  rw [be, ofBe, h, List.reverse_reverse]

theorem Fits.lt {p : Bytes} (h : Fits p) : p.length < 256 ^ 4 := lt_of_le_of_lt h (by decide)

/-- The frame of a payload says how long it is. -/
theorem ofBe_frame {p rest : Bytes} (h : Fits p) : ofBe ((frame p ++ rest).take 4) = p.length := by
  rw [frame, List.append_assoc, List.take_left' (length_be _ _), ofBe_be h.lt]

/-- Frames can be told apart. -/
theorem prefixCode : PrefixCode frame Fits where
  nonempty {p} _ hnil := by
    have hlen := congrArg List.length hnil
    rw [frame, List.length_append, length_be, List.length_nil] at hlen
    omega
  free {p q} hp hq hpre := by
    obtain ⟨rest, hrest⟩ := hpre
    have hlen : p.length = q.length := by
      have hsize : ofBe ((frame q ++ []).take 4) = q.length := ofBe_frame hq
      rw [List.append_nil, ← hrest, ofBe_frame hp] at hsize
      exact hsize
    rw [frame, frame, List.append_assoc, hlen] at hrest
    have hcancel : p ++ rest = q ++ [] := by rw [List.append_nil, List.append_cancel_left hrest]
    exact (List.append_inj hcancel hlen).1

/-! ## Reading -/

section Reading
variable {s : Stream} {n : ℕ} {p rest : Bytes}

theorem fill_of_le (h : n ≤ s.flatten.length) : ∃ s', fill s n = (.ok (s.flatten.take n), s') ∧
    s'.flatten = s.flatten.drop n := by
  induction s generalizing n with
  | nil =>
    obtain rfl := Nat.le_zero.1 h
    exact ⟨[], rfl, rfl⟩
  | cons piece s ih =>
    rw [List.flatten_cons, List.length_append] at h
    rw [List.flatten_cons, List.take_append, List.drop_append, fill]
    split_ifs with hle
    · refine ⟨piece.drop n :: s, ?_, ?_⟩
      · rw [Nat.sub_eq_zero_of_le hle, List.take_zero, List.append_nil]
      · rw [List.flatten_cons, Nat.sub_eq_zero_of_le hle, List.drop_zero]
    · obtain ⟨s', hfill, hs'⟩ := ih (n := n - piece.length) (by omega)
      refine ⟨s', ?_, ?_⟩
      · rw [hfill, List.take_of_length_le (l := piece) (by omega)]
      · rw [hs', List.drop_of_length_le (l := piece) (by omega), List.nil_append]

theorem fill_of_lt (h : s.flatten.length < n) :
    (fill s n).1 = Res.fail .unexpectedEof "failed to fill whole buffer" := by
  induction s generalizing n with
  | nil =>
    cases n with
    | zero => cases h
    | succ n => rfl
  | cons piece s ih =>
    rw [List.flatten_cons, List.length_append] at h
    have hrest := ih (n := n - piece.length) (by omega)
    rw [fill, if_neg (by omega)]
    rcases hfill : fill s (n - piece.length) with ⟨r, s'⟩
    rw [hfill] at hrest
    obtain rfl : r = _ := hrest
    rfl

/-- **`read_exact`** takes the next bytes, however they arrive in pieces. -/
theorem readExact_of_le (h : n ≤ s.flatten.length) : ∃ s', (readExact n).run s = (.ok (s.flatten.take n), s') ∧
    s'.flatten = s.flatten.drop n := fill_of_le h

theorem readExact_of_lt (h : s.flatten.length < n) :
    ((readExact n).run s).1 = Res.fail .unexpectedEof "failed to fill whole buffer" := fill_of_lt h

/-- **A frame that is there** is read. -/
theorem readFrame_frame (hp : Fits p) (hs : s.flatten = frame p ++ rest) :
    ∃ s', readFrame.run s = (.ok p, s') ∧ s'.flatten = rest := by
  have hlen : s.flatten.length = 4 + p.length + rest.length := by
    rw [hs, List.length_append, frame, List.length_append, length_be]
  obtain ⟨s₁, hheader, hs₁⟩ := readExact_of_le (s := s) (n := 4) (by omega)
  have hsize : ofBe (s.flatten.take 4) = p.length := by rw [hs, ofBe_frame hp]
  have hrest : s₁.flatten = p ++ rest := by
    rw [hs₁, hs, frame, List.append_assoc, List.drop_left' (length_be _ _)]
  obtain ⟨s₂, hbody, hs₂⟩ := readExact_of_le (s := s₁) (n := p.length) (by rw [hrest, List.length_append]; omega)
  refine ⟨s₂, ?_, by rw [hs₂, hrest, List.drop_left' rfl]⟩
  rw [readFrame, Act.run_bind_ok hheader, hsize, if_neg (Nat.not_lt.2 hp)]
  rw [hrest, List.take_left' rfl] at hbody
  exact hbody

/-- **A stream that begins with no frame** is not read. -/
theorem readFrame_end (hs : ¬ Begins frame Fits s.flatten) :
    ∃ s', readFrame.run s = (.error (streamEnd s.flatten), s') := by
  rw [readFrame]
  by_cases hheader : 4 ≤ s.flatten.length
  · obtain ⟨s₁, hfill, hs₁⟩ := readExact_of_le hheader
    rw [Act.run_bind_ok hfill]
    by_cases hlimit : ofBe (s.flatten.take 4) > MAX_FRAME
    · rw [if_pos hlimit, streamEnd, if_pos ⟨hheader, hlimit⟩]
      exact ⟨s₁, rfl⟩
    · rw [if_neg hlimit, streamEnd, if_neg fun h => hlimit h.2]
      -- the bytes of the payload are not all there
      have hshort : s₁.flatten.length < ofBe (s.flatten.take 4) := by
        by_contra hlong
        rw [Nat.not_lt] at hlong
        have hlen := List.length_take_of_le hlong
        refine hs ⟨s₁.flatten.take (ofBe (s.flatten.take 4)), ?_, s₁.flatten.drop (ofBe (s.flatten.take 4)), ?_⟩
        · rw [Fits, hlen]
          exact Nat.not_lt.1 hlimit
        · have hbe := be_ofBe (s.flatten.take 4)
          rw [List.length_take_of_le hheader] at hbe
          rw [frame, hlen, hbe, List.append_assoc, List.take_append_drop, hs₁, List.take_append_drop]
      exact ⟨_, Prod.ext (readExact_of_lt hshort) rfl⟩
  · have hfill := readExact_of_lt (Nat.not_le.1 hheader)
    rw [streamEnd, if_neg fun h => hheader h.1]
    exact ⟨_, Act.run_bind_error (Prod.ext hfill rfl)⟩

/-- **What is read from a stream**: its frames, and then an error. -/
theorem calls_readFrame {ps : List Bytes} (hps : ∀ p ∈ ps, Fits p) (ht : ¬ Begins frame Fits rest)
    (hs : s.flatten = ps.flatMap frame ++ rest) :
    ∃ s', Act.calls (List.replicate (ps.length + 1) readFrame) s =
      (ps.map .ok ++ [.error (streamEnd rest)], s') := by
  induction ps generalizing s with
  | nil =>
    rw [List.flatMap_nil, List.nil_append] at hs
    subst hs
    obtain ⟨s', hread⟩ := readFrame_end ht
    refine ⟨s', ?_⟩
    change Act.calls [readFrame] s = _
    rw [Act.calls, hread]
    rfl
  | cons p ps ih =>
    rw [List.flatMap_cons, List.append_assoc] at hs
    obtain ⟨s₁, hread, hs₁⟩ := readFrame_frame (hps p List.mem_cons_self) hs
    obtain ⟨s', hcalls⟩ := ih (fun q hq => hps q (List.mem_cons_of_mem _ hq)) hs₁
    refine ⟨s', ?_⟩
    rw [List.length_cons, List.replicate_succ, Act.calls, hread, hcalls]
    rfl

end Reading

/-! ## Writing -/

/-- What `write_frame` returns. -/
def written (payload : Bytes) : Res Unit :=
  if 2 ^ 32 ≤ payload.length then Res.fail .invalidInput "raft: frame too large"
  else if payload.length > MAX_FRAME then Res.fail .invalidInput "raft: frame exceeds limit"
  else .ok ()

/-- **`write_frame`** writes a whole frame, or nothing. -/
theorem writeFrame_run (p out : Bytes) : (writeFrame p).run out =
    (written p, if Fits p then out ++ frame p else out) := by
  have hmax : MAX_FRAME < 2 ^ 32 := by decide
  change _ = (written p, if p.length ≤ MAX_FRAME then out ++ frame p else out)
  rw [writeFrame, written]
  split_ifs with hlarge hlimit hfits hfits
  · omega
  · rfl
  · omega
  · rfl
  · change (Except.ok (), out ++ be 4 p.length ++ p) = _
    rw [frame, List.append_assoc]
  · omega

theorem calls_writeFrame (payloads : List Bytes) (out : Bytes) : Act.calls (payloads.map writeFrame) out =
    (payloads.map written, out ++ (payloads.filter fun p => decide (Fits p)).flatMap frame) := by
  induction payloads generalizing out with
  | nil =>
    rw [List.filter_nil, List.flatMap_nil, List.append_nil]
    rfl
  | cons p payloads ih =>
    rw [List.map_cons, Act.calls, writeFrame_run, ih, List.map_cons, List.filter_cons]
    simp only [decide_eq_true_eq]
    split_ifs
    · rw [List.flatMap_cons, List.append_assoc]
    · rfl

/-- **Frames are delivered whole**: every stream, in whatever pieces it arrives, is read as the payloads
    of its frames, and then ends with an error.  Of a sender's payloads, those that fit are written, and
    if the connection breaks anywhere, the first of them are read, up to the one that is cut off. -/
theorem frames_delivered :
    (∀ s : Stream, ∃ (ps : List Bytes) (rest : Bytes) (s' : Stream), (∀ p ∈ ps, Fits p) ∧
      ¬ Begins frame Fits rest ∧ s.flatten = ps.flatMap frame ++ rest ∧
      Act.calls (List.replicate (ps.length + 1) readFrame) s = (ps.map .ok ++ [.error (streamEnd rest)], s')) ∧
    ∀ (payloads : List Bytes) (s : Stream), s.flatten <+: (Act.calls (payloads.map writeFrame) []).2 →
      ∃ k s', (let sent := payloads.filter fun p => decide (Fits p)
        (∀ p, sent[k]? = some p → s.flatten.length < ((sent.take (k + 1)).flatMap frame).length) ∧
        ((sent.take k).flatMap frame).length ≤ s.flatten.length ∧
        Act.calls (List.replicate ((sent.take k).length + 1) readFrame) s =
          ((sent.take k).map .ok ++ [Res.fail .unexpectedEof "failed to fill whole buffer"], s')) := by
  constructor
  · intro s
    obtain ⟨ps, rest, hps, hrest, hs⟩ := prefixCode.exists_frames s.flatten
    obtain ⟨s', hcalls⟩ := calls_readFrame hps hrest hs
    exact ⟨ps, rest, s', hps, hrest, hs, hcalls⟩
  · intro payloads s hcut
    rw [calls_writeFrame, List.nil_append] at hcut
    set sent := payloads.filter fun p => decide (Fits p) with hsent
    have hfits : ∀ p ∈ sent, Fits p := fun p hp => of_decide_eq_true (List.mem_filter.1 hp).2
    obtain ⟨k, hk, t, hs, ht, hend, hnext⟩ := prefixCode.frames_cut hfits hcut
    obtain ⟨s', hcalls⟩ := calls_readFrame (fun p hp => hfits p (List.mem_of_mem_take hp)) ht hs
    have heof : streamEnd t = .io ⟨.unexpectedEof, "failed to fill whole buffer"⟩ := by
      rw [streamEnd, if_neg]
      rintro ⟨hlen, hlimit⟩
      rcases hp : sent[k]? with _ | p
      · rw [hend (le_antisymm (List.getElem?_eq_none_iff.1 hp) hk)] at hlen
        cases hlen
      · obtain ⟨hpre, -⟩ := hnext p hp
        obtain ⟨u, hu⟩ := hpre
        have hfit := hfits p (List.mem_of_getElem? hp)
        have hsize : ofBe ((frame p ++ []).take 4) = p.length := ofBe_frame hfit
        rw [List.append_nil, ← hu, List.take_append_of_le_length hlen] at hsize
        rw [hsize] at hlimit
        exact absurd hfit (Nat.not_le.2 hlimit)
    rw [heof] at hcalls
    refine ⟨k, s', fun p hp => ?_, ?_, hcalls⟩
    · obtain ⟨hpre, hne⟩ := hnext p hp
      rw [List.take_add_one, hp, Option.toList_some, List.flatMap_append, hs, List.length_append, List.length_append,
        List.flatMap_singleton]
      have hlt : t.length < (frame p).length :=
        lt_of_le_of_ne hpre.length_le fun heq => hne (hpre.eq_of_length heq)
      omega
    · rw [hs, List.length_append]
      exact Nat.le_add_right _ _

/-! ## The network in memory -/

/-- `Message`. -/
structure Message where
  source : U64
  target : U64
  payload : Bytes
  deriving DecidableEq, Repr

/-- `InMemoryTransport`. -/
structure InMemoryTransport where
  blocked : List (U64 × U64) := []
  queue : List Message := []

/-- The operations on the network. -/
inductive Op where
  | partition (a b : U64)
  | heal (a b : U64)
  | healAll
  | send (message : Message)
  | deliverNext
  | deliverLast
  | dropNext

/-- What an operation returns. -/
inductive Answer where
  | done
  | accepted (yes : Bool)
  | message (message : Option Message)
  deriving DecidableEq, Repr

namespace InMemoryTransport

/-- `reachable`. -/
def reachable (t : InMemoryTransport) (source target : U64) : Bool := !t.blocked.contains (source, target)

/-- `partition`. -/
def partition (t : InMemoryTransport) (a b : U64) : InMemoryTransport :=
  { t with blocked := (b, a) :: (a, b) :: t.blocked }

/-- `heal`. -/
def heal (t : InMemoryTransport) (a b : U64) : InMemoryTransport :=
  { t with blocked := t.blocked.filter fun link => decide (link ≠ (a, b) ∧ link ≠ (b, a)) }

/-- `heal_all`. -/
def healAll (t : InMemoryTransport) : InMemoryTransport := { t with blocked := [] }

/-- `send`. -/
def send (t : InMemoryTransport) (message : Message) : Bool × InMemoryTransport :=
  if !t.reachable message.source message.target then (false, t)
  else (true, { t with queue := t.queue ++ [message] })

/-- `deliver_next`. -/
def deliverNext (t : InMemoryTransport) : Option Message × InMemoryTransport :=
  (t.queue.head?, { t with queue := t.queue.tail })

/-- `deliver_last`. -/
def deliverLast (t : InMemoryTransport) : Option Message × InMemoryTransport :=
  (t.queue.getLast?, { t with queue := t.queue.dropLast })

/-- `drop_next`. -/
def dropNext (t : InMemoryTransport) : Option Message × InMemoryTransport :=
  (t.queue.head?, { t with queue := t.queue.tail })

/-- An operation, and what it returns. -/
def call (t : InMemoryTransport) : Op → Answer × InMemoryTransport
  | .partition a b => (.done, t.partition a b)
  | .heal a b => (.done, t.heal a b)
  | .healAll => (.done, t.healAll)
  | .send message => (.accepted (t.send message).1, (t.send message).2)
  | .deliverNext => (.message t.deliverNext.1, t.deliverNext.2)
  | .deliverLast => (.message t.deliverLast.1, t.deliverLast.2)
  | .dropNext => (.message t.dropNext.1, t.dropNext.2)

/-- The steps of a run: operations, with what they have returned. -/
def Step (t : InMemoryTransport) (l : Op × Answer) (t' : InMemoryTransport) : Prop := t.call l.1 = (l.2, t')

/-- The newest operation that concerns both nodes has separated them. -/
def separated (a b : U64) : List (InMemoryTransport × Op × Answer) → Bool
  | [] => false
  | (_, .partition x y, _) :: steps =>
    if (a, b) = (x, y) ∨ (a, b) = (y, x) then true else separated a b steps
  | (_, .heal x y, _) :: steps =>
    if (a, b) = (x, y) ∨ (a, b) = (y, x) then false else separated a b steps
  | (_, .healAll, _) :: _ => false
  | _ :: steps => separated a b steps

/-- The messages that were sent between nodes that were not separated then, oldest first. -/
def admitted : List (InMemoryTransport × Op × Answer) → List Message
  | [] => []
  | (_, .send message, _) :: steps =>
    if separated message.source message.target steps then admitted steps else admitted steps ++ [message]
  | _ :: steps => admitted steps

/-- The messages that `send` has accepted, oldest first. -/
def accepted : List (InMemoryTransport × Op × Answer) → List Message
  | [] => []
  | (_, .send message, .accepted true) :: steps => accepted steps ++ [message]
  | _ :: steps => accepted steps

/-- The messages that were delivered or dropped, oldest first. -/
def taken : List (InMemoryTransport × Op × Answer) → List Message
  | [] => []
  | (_, _, .message (some message)) :: steps => taken steps ++ [message]
  | _ :: steps => taken steps

/-- Messages are taken from the front only. -/
def InOrder (steps : List (InMemoryTransport × Op × Answer)) : Prop := ∀ p ∈ steps, p.2.1 ≠ .deliverLast

/-- What the network has, after the steps. -/
structure Carries (steps : List (InMemoryTransport × Op × Answer)) (t : InMemoryTransport) : Prop where
  reachable : ∀ a b, t.reachable a b = !separated a b steps
  admits : accepted steps = admitted steps
  perm : (taken steps ++ t.queue).Perm (admitted steps)
  order : InOrder steps → taken steps ++ t.queue = admitted steps

section Carries
variable {steps : List (InMemoryTransport × Op × Answer)} {t t' : InMemoryTransport} {op : Op} {answer : Answer}

theorem reachable_eq (t : InMemoryTransport) (a b : U64) : t.reachable a b = decide ((a, b) ∉ t.blocked) := by
  rw [InMemoryTransport.reachable, List.contains_eq_mem, decide_not]

theorem InOrder.tail {p : InMemoryTransport × Op × Answer} (h : InOrder (p :: steps)) : InOrder steps :=
  fun q hq => h q (List.mem_cons_of_mem _ hq)

/-- A message is taken from the front, by a delivery or a loss. -/
theorem Carries.front (h : Carries steps t) (hop : op = .deliverNext ∨ op = .dropNext) :
    Carries ((t, op, .message t.queue.head?) :: steps) { t with queue := t.queue.tail } := by
  have hmoved : taken ((t, op, .message t.queue.head?) :: steps) ++ t.queue.tail = taken steps ++ t.queue := by
    rcases hq : t.queue with _ | ⟨message, queue⟩
    · rcases hop with rfl | rfl <;> rfl
    · rcases hop with rfl | rfl <;>
        rw [List.head?_cons, List.tail_cons, taken, List.append_assoc, List.singleton_append]
  constructor
  · rcases hop with rfl | rfl <;> exact h.reachable
  · rcases hop with rfl | rfl <;> exact h.admits
  · change (taken _ ++ t.queue.tail).Perm _
    rw [hmoved]
    rcases hop with rfl | rfl <;> exact h.perm
  · intro hin
    change taken _ ++ t.queue.tail = _
    rw [hmoved]
    rcases hop with rfl | rfl <;> exact h.order hin.tail

/-- Two nodes are separated. -/
theorem Carries.cutOff (h : Carries steps t) (x y : U64) :
    Carries ((t, .partition x y, .done) :: steps) (t.partition x y) := by
  refine ⟨fun a b => ?_, h.admits, h.perm, fun hin => h.order hin.tail⟩
  have hab := h.reachable a b
  simp only [reachable_eq, partition, separated, List.mem_cons] at hab ⊢
  split_ifs with hpair
  · simp only [Bool.not_true, decide_eq_false_iff_not, not_not]
    tauto
  · rw [← hab]
    exact decide_eq_decide.2 (by tauto)

/-- Two nodes are connected again. -/
theorem Carries.rejoin (h : Carries steps t) (x y : U64) : Carries ((t, .heal x y, .done) :: steps) (t.heal x y) := by
  refine ⟨fun a b => ?_, h.admits, h.perm, fun hin => h.order hin.tail⟩
  have hab := h.reachable a b
  simp only [reachable_eq, heal, separated, List.mem_filter, decide_eq_true_eq] at hab ⊢
  split_ifs with hpair
  · simp only [Bool.not_false, decide_eq_true_eq]
    tauto
  · rw [← hab]
    exact decide_eq_decide.2 (by tauto)

/-- A message is sent: it is accepted if its nodes are not separated. -/
theorem Carries.sent (h : Carries steps t) (message : Message) :
    Carries ((t, .send message, .accepted (t.send message).1) :: steps) (t.send message).2 := by
  have hreach := h.reachable message.source message.target
  cases hsep : separated message.source message.target steps with
  | true =>
    have hsend : t.send message = (false, t) := by
      rw [send, hreach, hsep]
      rfl
    have hsame : admitted ((t, .send message, .accepted false) :: steps) = admitted steps := by
      rw [admitted, if_pos hsep]
    rw [hsend]
    exact ⟨h.reachable, h.admits.trans hsame.symm, by rw [hsame]; exact h.perm,
      fun hin => by rw [hsame]; exact h.order hin.tail⟩
  | false =>
    have hsend : t.send message = (true, { t with queue := t.queue ++ [message] }) := by
      rw [send, hreach, hsep]
      rfl
    have hmore : admitted ((t, .send message, .accepted true) :: steps) = admitted steps ++ [message] := by
      rw [admitted, if_neg (by rw [hsep]; exact Bool.false_ne_true)]
    rw [hsend]
    refine ⟨h.reachable, ?_, ?_, fun hin => ?_⟩
    · rw [hmore, accepted, h.admits]
    · rw [hmore, ← List.append_assoc]
      exact h.perm.append_right _
    · rw [hmore, ← List.append_assoc, ← h.order hin.tail]
      rfl

/-- A message is taken from the back. -/
theorem Carries.back (h : Carries steps t) :
    Carries ((t, .deliverLast, .message t.queue.getLast?) :: steps) { t with queue := t.queue.dropLast } := by
  refine ⟨h.reachable, h.admits, ?_, fun hin => absurd rfl (hin _ List.mem_cons_self)⟩
  have hlast : (taken ((t, .deliverLast, .message t.queue.getLast?) :: steps) ++ t.queue.dropLast).Perm
      (taken steps ++ t.queue) := by
    rcases List.eq_nil_or_concat t.queue with hq | ⟨queue, message, hq⟩
    · rw [hq]
      exact List.Perm.refl _
    · rw [hq, List.concat_eq_append, List.getLast?_concat, List.dropLast_concat, taken, List.append_assoc]
      exact List.Perm.append_left _ List.perm_append_comm
  exact hlast.trans h.perm

/-- **Operations**: what the network has after one more. -/
theorem Carries.step (h : Carries steps t) (hstep : Step t (op, answer) t') :
    Carries ((t, op, answer) :: steps) t' := by
  unfold Step at hstep
  cases op with
  | partition x y =>
    cases hstep
    exact h.cutOff x y
  | heal x y =>
    cases hstep
    exact h.rejoin x y
  | healAll =>
    cases hstep
    exact ⟨fun a b => by simp [reachable_eq, healAll, separated], h.admits, h.perm,
      fun hin => h.order hin.tail⟩
  | send message =>
    cases hstep
    exact h.sent message
  | deliverNext =>
    cases hstep
    exact h.front (Or.inl rfl)
  | deliverLast =>
    cases hstep
    exact h.back
  | dropNext =>
    cases hstep
    exact h.front (Or.inr rfl)

/-- **No message is lost or repeated**: after any operations, those that were delivered or dropped and those
    that wait are the messages that were sent between nodes that were not separated, each once; in the order in
    which they were sent, as long as none is taken from the back. -/
theorem transport_exact (hrun : Trace Step {} steps t) : Carries steps t := by
  induction hrun with
  | refl => exact ⟨fun _ _ => rfl, rfl, List.Perm.nil, fun _ => rfl⟩
  | step _ hstep ih => exact ih.step hstep

/-- A message is refused, one is delivered, and one waits. -/
theorem transport_exact_healed : ∃ steps t, Carries steps t ∧ taken steps = [⟨2, 1, [7]⟩] ∧
    t.queue = [⟨1, 2, [9]⟩] := by
  have hcall : ∀ t op, Step t (op, (t.call op).1) (t.call op).2 := fun _ _ => rfl
  have hstart : Trace Step {} [] {} := Trace.refl _
  have hrun := ((((hstart.step (hcall _ (.partition 1 2))).step
    (hcall _ (.send ⟨1, 2, [8]⟩))).step (hcall _ (.heal 2 1))).step (hcall _ (.send ⟨2, 1, [7]⟩))).step
    (hcall _ (.send ⟨1, 2, [9]⟩))
  exact ⟨_, _, transport_exact (hrun.step (hcall _ .deliverNext)), rfl, rfl⟩

end Carries

end InMemoryTransport

end NutDb.Transport
