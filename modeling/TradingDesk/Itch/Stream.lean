import TradingDesk.Itch.Reader

/-!
# TradingDesk.Itch.Stream

**Reading a whole stream.** A stream is a sequence of bodies, each behind its
big-endian length. `parse` says what message a body is, without a cursor and
without a host; `reads_whole_stream` says that on a little-endian host calling
`read_next_message` until it returns `false` pushes the parsed bodies, in order,
counts them, and uses up the stream.

The induction is on the bodies. Its step (`readNextMessage_frame`) is one call on
one frame; what has to come out of it is that the cursor stands at the next frame,
whichever of its two ways the call went.
-/

namespace TradingDesk.Itch

open TradingDesk.Core

/-! ### The wire format -/

/-- A body behind its length. -/
def frame (body : List UInt8) : List UInt8 := (toBytes 2 body.length).reverse ++ body

/-- The frames of a sequence of bodies. -/
def stream (bodies : List (List UInt8)) : List UInt8 := bodies.flatMap frame

@[simp] theorem length_frame (body : List UInt8) : (frame body).length = 2 + body.length := by
  simp [frame]

/-- The type of message a body is, if it is one the reader decodes. -/
def bodyType : List UInt8 → Option MessageType
  | [] => none
  | code :: _ => MessageType.ofCode? code

/-- The message a body is. -/
def parse {F : Type} [DoubleArith F] (body : List UInt8) : Option (Message F) :=
  (bodyType body).map fun t => ⟨t, parseFields body.tail t.fields⟩

/-- The body of a decodable message. -/
def decodable (body : List UInt8) : Bool := (bodyType body).isSome

/-- A body that fits behind a length, and has the size its type calls for. -/
structure WellFormedBody (body : List UInt8) : Prop where
  pos : 1 ≤ body.length
  fits : body.length ≤ 65535
  size : ∀ t, bodyType body = some t → body.length = t.messageSize

/-- The counters after a sequence of bodies. -/
def MessagesStatus.count (status : MessagesStatus) (stall : Nat) (bodies : List (List UInt8)) :
    MessagesStatus where
  stall := stall
  loaded := status.loaded + ((bodies.filter decodable).map List.length).sum
  skipped := status.skipped + bodies.countP fun body => !decodable body
  read := status.read + bodies.countP decodable

theorem MessagesStatus.count_count (status : MessagesStatus) (stall stall' : Nat)
    (as bs : List (List UInt8)) :
    (status.count stall as).count stall' bs = status.count stall' (as ++ bs) := by
  simp [count, Nat.add_assoc]

/-! ### Buffers with one frame in front -/

/-- The buffer at the cursor starts with the frame of `body`. -/
structure StartsWith (mem : Memory) (c : Cursor) (body : List UInt8) : Prop where
  bytes : mem.bytes c.p (2 + body.length) = frame body
  room : ((2 + body.length : Nat) : Int) ≤ c.l

section

variable {mem : Memory} {c : Cursor} {body : List UInt8}

theorem StartsWith.frameLength_eq (h : StartsWith mem c body) (hfits : body.length ≤ 65535) :
    frameLength mem c = body.length := by
  have hmem := h.bytes
  rw [← length_frame] at hmem
  have hcut := (Memory.bytes_eq_append hmem).1
  rw [List.length_reverse, length_toBytes] at hcut
  rw [frameLength, hcut, ofBytesBE, List.reverse_reverse, ofBytes_toBytes (by omega)]

theorem StartsWith.bodyBytes (h : StartsWith mem c body) :
    mem.bytes (c.p + 2) body.length = body := by
  have hmem := h.bytes
  rw [← length_frame] at hmem
  have hcut := (Memory.bytes_eq_append hmem).2
  rwa [List.length_reverse, length_toBytes] at hcut

theorem StartsWith.frameCode_eq {code : UInt8} {rest : List UInt8}
    (h : StartsWith mem c (code :: rest)) :
    frameCode mem c = code ∧ mem.bytes (c.p + 3) rest.length = rest :=
  List.cons.inj h.bodyBytes

end

/-! ### The loop -/

variable {Q F : Type} [MessageQueue Q (Message F)] [DoubleArith F]

/-- Call `read_next_message` until it returns `false`, for a number of calls. -/
def readStream (host : ByteOrder) (mem : Memory) (attempts : Nat) :
    Nat → Reader Q → Option (Reader Q)
  | 0, _ => none
  | calls + 1, r =>
    match readNextMessage host mem attempts r with
    | none => none
    | some (true, r) => readStream host mem attempts calls r
    | some (false, r) => some r

/-- **One frame.** One call on a well-formed frame returns `true`, pushes the message
the body is, if it is one, and leaves the cursor behind the frame. -/
theorem readNextMessage_frame {pushed : Q → List (Message F)} (hq : QueueContract pushed)
    {mem : Memory} {body : List UInt8} (hwf : WellFormedBody body) (r : Reader Q)
    (hmem : mem.bytes r.cursor.p (2 + body.length) = frame body)
    (hl : (2 + body.length : Nat) ≤ r.cursor.l) :
    ∃ n q' stall, pushed q' = pushed r.queue ++ (parse body).toList ∧
      ∀ attempts ≥ n, readNextMessage .little mem attempts r
        = some (true, ⟨r.cursor.skip (2 + body.length), r.status.count stall [body], q'⟩) := by
  have hstart : StartsWith mem r.cursor body := ⟨hmem, hl⟩
  have hlength := hstart.frameLength_eq hwf.fits
  push_cast at hl
  have hlen : ¬ r.cursor.l < 2 := by omega
  have hroom : ¬ r.cursor.l - 2 < (body.length : Int) := by omega
  obtain ⟨code, rest, rfl⟩ := List.exists_cons_of_length_pos hwf.pos
  obtain ⟨hcode, hrest⟩ := hstart.frameCode_eq
  -- the body is not empty, so its code is within the buffer
  have hbody : bodyStart r.cursor = r.cursor.skip 2 :=
    bodyStart_of_le (by rw [List.length_cons] at hl; push_cast at hl; omega)
  simp only [readNextMessage_eq, if_neg hlen, if_neg hroom, hcode, hlength, hbody]
  cases htype : MessageType.ofCode? code with
  | none =>
      refine ⟨0, r.queue, r.status.stall, ?_, fun _ _ => ?_⟩
      · simp [parse, bodyType, htype]
      · simp [MessagesStatus.count, decodable, bodyType, htype, Cursor.skip_skip]
  | some t =>
      have hsize : (code :: rest).length = t.messageSize := hwf.size t htype
      have hfields : rest.length = fieldsSize t.fields := by
        rw [MessageType.messageSize_eq, List.length_cons] at hsize
        omega
      -- the frame has the size of the message, so `decode` stops at the next frame
      have hdec : t.decode (F := F) .little mem (r.cursor.skip 2)
          = (true, ⟨t, parseFields rest t.fields⟩, r.cursor.skip (2 + (code :: rest).length)) := by
        have hcut : mem.bytes ((r.cursor.skip 2).p + 1) (fieldsSize t.fields) = rest := by
          rw [← hfields]
          exact hrest
        rw [MessageType.decode_eq (by rw [Cursor.skip_l, ← hsize]; omega) hcut,
          Cursor.skip_skip, hsize]
      obtain ⟨n, q', stall, hpushed, hread⟩ := hq.messageRead .little mem t (code :: rest).length
        { r with cursor := r.cursor.skip 2 }
      rw [hdec] at hpushed
      refine ⟨n, q', stall, ?_, fun attempts hle => ?_⟩
      · simpa [parse, bodyType, htype] using hpushed
      · refine (congrArg (Option.map fun r => (true, r)) (hread attempts hle)).trans ?_
        rw [hdec]
        simp [MessagesStatus.count, decodable, bodyType, htype]

/-- From the start of any stream on. -/
theorem readStream_stream {pushed : Q → List (Message F)} (hq : QueueContract pushed)
    {mem : Memory} {bodies : List (List UInt8)} (hwf : ∀ body ∈ bodies, WellFormedBody body)
    (r : Reader Q) (hmem : mem.bytes r.cursor.p (stream bodies).length = stream bodies)
    (hl : r.cursor.l = (stream bodies).length) :
    ∃ n q' stall, pushed q' = pushed r.queue ++ bodies.filterMap parse ∧
      ∀ attempts ≥ n, ∀ calls > bodies.length, readStream .little mem attempts calls r
        = some ⟨r.cursor.skip (stream bodies).length, r.status.count stall bodies, q'⟩ := by
  induction bodies generalizing r with
  | nil =>
      refine ⟨0, r.queue, r.status.stall, by simp, fun attempts _ calls hcalls => ?_⟩
      obtain ⟨k, rfl⟩ := Nat.exists_eq_add_of_le' (Nat.lt_of_lt_of_le (Nat.zero_lt_succ _) hcalls)
      have hend : readNextMessage .little mem attempts r = some (false, r) :=
        if_pos (by rw [hl]; decide)
      simp [readStream, hend, stream, MessagesStatus.count]
  | cons body bodies ih =>
      have hsplit : stream (body :: bodies) = frame body ++ stream bodies := rfl
      rw [hsplit] at hmem hl ⊢
      obtain ⟨hframe, hrest⟩ := Memory.bytes_eq_append hmem
      rw [List.length_append, length_frame] at hl
      rw [length_frame] at hframe hrest
      obtain ⟨n, q₁, stall₁, hpushed₁, hcall⟩ :=
        readNextMessage_frame hq (hwf body (by simp)) r hframe (by push_cast at hl ⊢; omega)
      obtain ⟨k, q₂, stall₂, hpushed₂, hloop⟩ :=
        ih (fun b hb => hwf b (by simp [hb]))
          ⟨r.cursor.skip (2 + body.length), r.status.count stall₁ [body], q₁⟩ hrest
          (by rw [Cursor.skip_l, hl]; push_cast; omega)
      -- attempts enough for the first frame and for all the others
      refine ⟨max n k, q₂, stall₂, ?_, fun attempts hle calls hcalls => ?_⟩
      · rw [hpushed₂, hpushed₁, List.append_assoc]
        cases hp : parse (F := F) body <;> simp [hp]
      · obtain ⟨calls, rfl⟩ :=
          Nat.exists_eq_add_of_le' (Nat.lt_of_lt_of_le (Nat.zero_lt_succ _) hcalls)
        rw [readStream, hcall attempts (le_trans (le_max_left n k) hle)]
        show readStream .little mem attempts calls _ = _
        rw [hloop attempts (le_trans (le_max_right n k) hle) calls
          (by rw [List.length_cons] at hcalls; omega)]
        rw [MessagesStatus.count_count, Cursor.skip_skip, List.length_append, length_frame]
        rfl

/-- **Whole-stream reading.** On a little-endian host, with a buffer that holds the
frames of well-formed bodies and nothing else, calling `read_next_message` until it
returns `false` uses up the buffer without an access outside it, pushes the messages
the decodable bodies are, in order, and counts the frames and the bytes. -/
theorem reads_whole_stream {pushed : Q → List (Message F)} (hq : QueueContract pushed)
    {mem : Memory} {bodies : List (List UInt8)} (hwf : ∀ body ∈ bodies, WellFormedBody body)
    (hmem : mem.bytes 0 (stream bodies).length = stream bodies) (q : Q) :
    ∃ n q' stall, pushed q' = pushed q ++ bodies.filterMap parse ∧
      ∀ attempts ≥ n, ∀ calls > bodies.length,
        readStream .little mem attempts calls ⟨.start (stream bodies).length, {}, q⟩
          = some {
              cursor := ⟨(stream bodies).length, 0, true⟩
              status := {
                stall := stall
                loaded := ((bodies.filter decodable).map List.length).sum
                skipped := bodies.countP fun body => !decodable body
                read := bodies.countP decodable }
              queue := q' } := by
  obtain ⟨n, q', stall, hpushed, hrun⟩ :=
    readStream_stream hq hwf ⟨.start (stream bodies).length, {}, q⟩ hmem rfl
  refine ⟨n, q', stall, hpushed, fun attempts hle calls hcalls => ?_⟩
  rw [hrun attempts hle calls hcalls]
  simp [Cursor.skip, Cursor.start, MessagesStatus.count]

/-- A body of each kind: a deletion, and one with an unknown code. -/
def sampleBodies : List (List UInt8) :=
  ['D'.toUInt8 :: List.replicate 18 7, ['S'.toUInt8, 1, 2]]

/-- The two frames, offered to a queue that refuses three times. -/
theorem sample_reads_whole_stream :
    ∃ n q' stall, q'.messages = sampleBodies.filterMap (parse (F := Rat)) ∧
      ∀ attempts ≥ n, ∀ calls > 2,
        readStream .little (.ofList (stream sampleBodies) 0) attempts calls
            ⟨.start 26, {}, (⟨3, []⟩ : BusyQueue (Message Rat))⟩
          = some ⟨⟨26, 0, true⟩, ⟨stall, 19, 1, 1⟩, q'⟩ := by
  have hwf : ∀ body ∈ sampleBodies, WellFormedBody body := by
    have h₁ : WellFormedBody ('D'.toUInt8 :: List.replicate 18 7) := by
      refine ⟨by decide, by decide, fun t ht => ?_⟩
      obtain rfl : MessageType.orderDelete = t :=
        Option.some.inj (Eq.trans (by decide +kernel) ht)
      decide
    have h₂ : WellFormedBody ['S'.toUInt8, 1, 2] :=
      ⟨by decide, by decide, fun t ht => absurd ht (by decide +revert)⟩
    simpa [sampleBodies] using ⟨h₁, h₂⟩
  exact reads_whole_stream BusyQueue.contract hwf (Memory.bytes_ofList_zero _ 0) ⟨3, []⟩

end TradingDesk.Itch
