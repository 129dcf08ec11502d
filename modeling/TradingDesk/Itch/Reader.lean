import Mathlib.Logic.Function.Iterate
import TradingDesk.Itch.Decode

/-!
# TradingDesk.Itch.Reader

**`read_next_message`** (`itch_messages.hpp`, `itch_status.hpp`): one frame is a
big-endian 16-bit length and a body. The body of a frame with a known code goes to
the decoder of its message and the decoded message to a queue; any other body is
stepped over.

How far the cursor moves comes from the frame length for the frames that are
stepped over and from the decoder for the others. `frame_respected_iff` says
exactly for which frames the two agree.
-/

namespace TradingDesk.Itch

open TradingDesk.Core

/-! ### The queue -/

/-- A queue, as the reader sees it. -/
class MessageQueue (Q : Type) (M : outParam Type) where
  /-- Offer a message; `false` if the queue did not take it. -/
  tryPush : Q → M → Bool × Q

open MessageQueue (tryPush)

section Queue

variable {Q M : Type} [MessageQueue Q M]

/-- The queue after `n` offers of a message. -/
def offered (m : M) (n : Nat) (q : Q) : Q := (fun q => (tryPush q m).2)^[n] q

/-- What is relied on of a queue, with `pushed` the messages it has taken so far:
an offer it refuses leaves them alone, one it takes appends the message, and no
message is refused forever. -/
structure QueueContract (pushed : Q → List M) : Prop where
  refused (q : Q) (m : M) : (tryPush q m).1 = false → pushed (tryPush q m).2 = pushed q
  taken (q : Q) (m : M) : (tryPush q m).1 = true → pushed (tryPush q m).2 = pushed q ++ [m]
  eventually (q : Q) (m : M) : ∃ n, (tryPush (offered m n q) m).1 = true

/-- `while (!q.try_push(m)) status.stall++;`, for a number of attempts. -/
def pushLoop (m : M) : Nat → Q → Nat → Option (Q × Nat)
  | 0, _, _ => none
  | attempts + 1, q, stall =>
    let (done, q) := tryPush q m
    if done then some (q, stall) else pushLoop m attempts q (stall + 1)

/-- Enough attempts push the message. -/
theorem QueueContract.pushLoop {pushed : Q → List M} (hq : QueueContract pushed) (m : M) (q : Q)
    (stall : Nat) :
    ∃ n q' stall', pushed q' = pushed q ++ [m] ∧
      ∀ attempts ≥ n, Itch.pushLoop m attempts q stall = some (q', stall') := by
  -- on the number of refusals before the queue has room
  obtain ⟨n, hn⟩ := hq.eventually q m
  induction n generalizing q stall with
  | zero =>
      replace hn : (tryPush q m).1 = true := hn
      refine ⟨1, _, stall, hq.taken q m hn, fun attempts hle => ?_⟩
      obtain ⟨a, rfl⟩ := Nat.exists_eq_add_of_le' hle
      simp [Itch.pushLoop, hn]
  | succ n ih =>
      cases hnow : (tryPush q m).1 with
      | true =>
          refine ⟨1, _, stall, hq.taken q m hnow, fun attempts hle => ?_⟩
          obtain ⟨a, rfl⟩ := Nat.exists_eq_add_of_le' hle
          simp [Itch.pushLoop, hnow]
      | false =>
          obtain ⟨k, q', stall', hpushed, hloop⟩ := ih (tryPush q m).2 (stall + 1) hn
          rw [hq.refused q m hnow] at hpushed
          refine ⟨k + 1, q', stall', hpushed, fun attempts hle => ?_⟩
          obtain ⟨a, rfl⟩ := Nat.exists_eq_add_of_le' (Nat.le_of_add_left_le hle)
          simp [Itch.pushLoop, hnow, hloop a (by omega)]

/-- However many attempts it took, the message was appended, once. -/
theorem QueueContract.pushed_of_pushLoop {pushed : Q → List M} (hq : QueueContract pushed) {m : M}
    {attempts : Nat} {q q' : Q} {stall stall' : Nat}
    (h : Itch.pushLoop m attempts q stall = some (q', stall')) : pushed q' = pushed q ++ [m] := by
  induction attempts generalizing q stall with
  | zero => cases h
  | succ n ih =>
      cases hnow : (tryPush q m).1 with
      | true =>
          simp only [Itch.pushLoop, hnow, if_true] at h
          cases h
          exact hq.taken q m hnow
      | false =>
          simp only [Itch.pushLoop, hnow, Bool.false_eq_true, if_false] at h
          rw [ih h, hq.refused q m hnow]

end Queue

/-- A queue that refuses its next `busy` offers and takes everything after them. -/
structure BusyQueue (M : Type) where
  busy : Nat
  messages : List M

namespace BusyQueue

variable {M : Type}

instance : MessageQueue (BusyQueue M) M where
  tryPush
    | ⟨0, ms⟩, m => (true, ⟨0, ms ++ [m]⟩)
    | ⟨n + 1, ms⟩, _ => (false, ⟨n, ms⟩)

theorem contract : QueueContract (BusyQueue.messages (M := M)) where
  refused q m := by
    rcases q with ⟨_ | n, ms⟩
    · exact nofun
    · exact fun _ => rfl
  taken q m := by
    rcases q with ⟨_ | n, ms⟩
    · exact fun _ => rfl
    · exact nofun
  eventually q m := by
    obtain ⟨busy, ms⟩ := q
    refine ⟨busy, ?_⟩
    induction busy with
    | zero => rfl
    | succ n ih => exact ih

end BusyQueue

/-! ### The reader -/

/-- `read_status::messages_status`. -/
structure MessagesStatus where
  stall : Nat := 0
  loaded : Nat := 0
  skipped : Nat := 0
  read : Nat := 0
  deriving Repr, DecidableEq

/-- What the reader threads through its calls: pointer and remaining length, the
counters, the queue. -/
structure Reader (Q : Type) where
  cursor : Cursor
  status : MessagesStatus
  queue : Q

variable {Q F : Type} [MessageQueue Q (Message F)] [DoubleArith F]

/-- `MESSAGE_READ`: decode, push, count. Whether `decode` did anything is not looked
at. `none` means that the attempts did not suffice to push the message. -/
def messageRead (host : ByteOrder) (mem : Memory) (attempts : Nat) (t : MessageType)
    (messageSize : Nat) (r : Reader Q) : Option (Reader Q) :=
  let (_, m, c) := t.decode host mem r.cursor
  match pushLoop m attempts r.queue r.status.stall with
  | none => none
  | some (q, stall) =>
    some ⟨c, { r.status with
      stall := stall, loaded := r.status.loaded + messageSize, read := r.status.read + 1 }, q⟩

/-- Enough attempts push what `decode` made of the body. -/
theorem QueueContract.messageRead {pushed : Q → List (Message F)} (hq : QueueContract pushed)
    (host : ByteOrder) (mem : Memory) (t : MessageType) (messageSize : Nat) (r : Reader Q) :
    ∃ n q' stall', pushed q' = pushed r.queue ++ [(t.decode host mem r.cursor).2.1] ∧
      ∀ attempts ≥ n, Itch.messageRead host mem attempts t messageSize r
        = some ⟨(t.decode (F := F) host mem r.cursor).2.2, { r.status with
            stall := stall'
            loaded := r.status.loaded + messageSize
            read := r.status.read + 1 }, q'⟩ := by
  obtain ⟨n, q', stall', hpushed, hloop⟩ :=
    hq.pushLoop (t.decode host mem r.cursor).2.1 r.queue r.status.stall
  refine ⟨n, q', stall', hpushed, fun attempts hle => ?_⟩
  simp only [Itch.messageRead, hloop attempts hle]

/-- `read_next_message`. The code is looked at even if the body is empty. -/
def readNextMessage (host : ByteOrder) (mem : Memory) (attempts : Nat) (r : Reader Q) :
    Option (Bool × Reader Q) :=
  if r.cursor.l < 2 then some (false, r)
  else
    let (messageSize, c) := uncheckedDecodeInteger host mem r.cursor 2
    if c.l < messageSize then some (false, { r with cursor := c })
    else
      let code := mem c.p
      let c := c.touch 1
      match MessageType.ofCode? code with
      | some t =>
        match messageRead host mem attempts t messageSize { r with cursor := c } with
        | none => none
        | some r => some (true, r)
      | none =>
        some (true, { r with
          cursor := c.skip messageSize
          status := { r.status with skipped := r.status.skipped + 1 } })

/-! ### How far a call moves the cursor -/

/-- The length field of the frame at the cursor. -/
def frameLength (mem : Memory) (c : Cursor) : Nat := ofBytesBE (mem.bytes c.p 2)

/-- The code of the frame at the cursor. -/
def frameCode (mem : Memory) (c : Cursor) : UInt8 := mem (c.p + 2)

/-- The cursor at the body of the frame, with the code looked at. -/
def bodyStart (c : Cursor) : Cursor := (c.read 2).touch 1

theorem bodyStart_p (c : Cursor) : (bodyStart c).p = c.p + 2 := rfl

theorem bodyStart_l (c : Cursor) : (bodyStart c).l = c.l - 2 := rfl

/-- Where there is a code, looking at it stays within the buffer. -/
theorem bodyStart_of_le {c : Cursor} (h : 3 ≤ c.l) : bodyStart c = c.skip 2 := by
  rw [bodyStart, Cursor.read_of_le (by omega), Cursor.touch_of_le (by rw [Cursor.skip_l]; omega)]

/-- Everything a call can do, each outcome with the condition under which it is the
outcome. -/
inductive ReadEffect (host : ByteOrder) (mem : Memory) (attempts : Nat) (r : Reader Q) :
    Bool → Reader Q → Prop
  /-- There is no length field. -/
  | noLength (hl : r.cursor.l < 2) : ReadEffect host mem attempts r false r
  /-- The body is not there in full, and the length field is off the cursor. -/
  | noBody (hl : 2 ≤ r.cursor.l) (hbody : r.cursor.l - 2 < frameLength mem r.cursor) :
      ReadEffect host mem attempts r false { r with cursor := r.cursor.skip 2 }
  /-- The code is unknown: the body is stepped over. -/
  | skipped (hl : 2 ≤ r.cursor.l) (hbody : frameLength mem r.cursor ≤ r.cursor.l - 2)
      (hcode : MessageType.ofCode? (frameCode mem r.cursor) = none) :
      ReadEffect host mem attempts r true { r with
        cursor := (bodyStart r.cursor).skip (frameLength mem r.cursor)
        status := { r.status with skipped := r.status.skipped + 1 } }
  /-- The code is known: whatever `decode` made of the body is pushed and counted. -/
  | decoded {t : MessageType} {done : Bool} {m : Message F} {c : Cursor} {q : Q} {stall : Nat}
      (hl : 2 ≤ r.cursor.l) (hbody : frameLength mem r.cursor ≤ r.cursor.l - 2)
      (hcode : MessageType.ofCode? (frameCode mem r.cursor) = some t)
      (hdecode : t.decode host mem (bodyStart r.cursor) = (done, m, c))
      (hpush : pushLoop m attempts r.queue r.status.stall = some (q, stall)) :
      ReadEffect host mem attempts r true ⟨c, { r.status with
        stall := stall
        loaded := r.status.loaded + frameLength mem r.cursor
        read := r.status.read + 1 }, q⟩

/-- A call, in the terms of the frame at the cursor. -/
theorem readNextMessage_eq (host : ByteOrder) (mem : Memory) (attempts : Nat) (r : Reader Q) :
    readNextMessage host mem attempts r =
      if r.cursor.l < 2 then some (false, r)
      else if r.cursor.l - 2 < frameLength mem r.cursor then
        some (false, { r with cursor := r.cursor.skip 2 })
      else match MessageType.ofCode? (frameCode mem r.cursor) with
        | some t => (messageRead host mem attempts t (frameLength mem r.cursor)
            { r with cursor := bodyStart r.cursor }).map fun r => (true, r)
        | none => some (true, { r with
            cursor := (bodyStart r.cursor).skip (frameLength mem r.cursor)
            status := { r.status with skipped := r.status.skipped + 1 } }) := by
  have hlen : (uncheckedDecodeInteger host mem r.cursor 2).1 = frameLength mem r.cursor :=
    ByteOrder.bigToNative_load host (mem.length_bytes _ _)
  have hcur : (uncheckedDecodeInteger host mem r.cursor 2).2 = r.cursor.read 2 := rfl
  have hcode : mem (r.cursor.read 2).p = frameCode mem r.cursor := rfl
  unfold readNextMessage
  by_cases hl : r.cursor.l < 2
  · rw [if_pos hl, if_pos hl]
  have hread : r.cursor.read 2 = r.cursor.skip 2 := Cursor.read_of_le (by omega)
  rw [if_neg hl, if_neg hl]
  simp only [hlen, hcur, hcode]
  by_cases hbody : r.cursor.l - 2 < frameLength mem r.cursor
  · rw [if_pos hbody, if_pos (by exact_mod_cast hbody), hread]
  rw [if_neg hbody, if_neg (by exact_mod_cast hbody)]
  cases MessageType.ofCode? (frameCode mem r.cursor) with
  | none => rfl
  | some t =>
      dsimp only
      rw [← bodyStart]
      cases messageRead host mem attempts t (frameLength mem r.cursor)
        { r with cursor := bodyStart r.cursor } <;> rfl

/-- **Inversion of a call.** -/
theorem readNextMessage_effect {host : ByteOrder} {mem : Memory} {attempts : Nat} {done : Bool}
    {r r' : Reader Q} (h : readNextMessage host mem attempts r = some (done, r')) :
    ReadEffect host mem attempts r done r' := by
  rw [readNextMessage_eq] at h
  by_cases hl : r.cursor.l < 2
  · rw [if_pos hl] at h
    cases h
    exact .noLength hl
  rw [if_neg hl] at h
  by_cases hbody : r.cursor.l - 2 < frameLength mem r.cursor
  · rw [if_pos hbody] at h
    cases h
    exact .noBody (by omega) hbody
  rw [if_neg hbody] at h
  -- the code decides between the two ways to go on
  cases hcode : MessageType.ofCode? (frameCode mem r.cursor) with
  | none =>
      rw [hcode] at h
      cases h
      exact .skipped (by omega) (by omega) hcode
  | some t =>
      rw [hcode] at h
      obtain ⟨r₁, hread, heq⟩ := Option.map_eq_some_iff.mp h
      cases heq
      rw [messageRead] at hread
      cases hpush : pushLoop (t.decode host mem (bodyStart r.cursor)).2.1 attempts r.queue
          r.status.stall with
      | none => simp [hpush] at hread
      | some out =>
          simp only [hpush] at hread
          cases hread
          exact .decoded (by omega) (by omega) hcode rfl hpush

/-- Where a call that returns `true` leaves the cursor: behind the frame if the code
is unknown, otherwise where `decode` leaves it. -/
theorem cursor_of_readNextMessage {host : ByteOrder} {mem : Memory} {attempts : Nat}
    {r r' : Reader Q} (h : readNextMessage host mem attempts r = some (true, r')) :
    2 ≤ r.cursor.l ∧ frameLength mem r.cursor ≤ r.cursor.l - 2 ∧
      r'.cursor = match MessageType.ofCode? (frameCode mem r.cursor) with
        | none => (bodyStart r.cursor).skip (frameLength mem r.cursor)
        | some t => if r.cursor.l - 2 < t.messageSize then bodyStart r.cursor
            else (bodyStart r.cursor).skip t.messageSize := by
  cases readNextMessage_effect h with
  | skipped hl hbody hcode => exact ⟨hl, hbody, by rw [hcode]⟩
  | @decoded t done m c q stall hl hbody hcode hdecode _ =>
      refine ⟨hl, hbody, ?_⟩
      have hcur := t.decode_snd_snd (F := F) host mem (bodyStart r.cursor)
      rw [hdecode] at hcur
      rw [hcode]
      exact hcur

/-- The call leaves pointer and remaining length behind the frame it read. -/
def MovesPastFrame (mem : Memory) (c c' : Cursor) : Prop :=
  c'.p = c.p + (2 + frameLength mem c) ∧ c'.l = c.l - (2 + frameLength mem c)

/-- The frame has an unknown code, or the length its code calls for, or it is empty
and too little of the buffer is left for `decode` to start. -/
def FrameFits (mem : Memory) (c : Cursor) : Prop :=
  ∀ t, MessageType.ofCode? (frameCode mem c) = some t →
    frameLength mem c = t.messageSize ∨
      (frameLength mem c = 0 ∧ c.l - 2 < t.messageSize)

/-- **Frame boundaries are respected exactly for the frames that fit.** A call that
returns `true`, on any host and any buffer, leaves the cursor behind the frame it
read if and only if the frame fits its code. -/
theorem frame_respected_iff {host : ByteOrder} {mem : Memory} {attempts : Nat} {r r' : Reader Q}
    (h : readNextMessage host mem attempts r = some (true, r')) :
    MovesPastFrame mem r.cursor r'.cursor ↔ FrameFits mem r.cursor := by
  obtain ⟨hl, hbody, hcur⟩ := cursor_of_readNextMessage h
  unfold MovesPastFrame FrameFits
  rw [hcur]
  cases hcode : MessageType.ofCode? (frameCode mem r.cursor) with
  | none =>
      simp only [bodyStart, Cursor.skip_p, Cursor.skip_l, Cursor.touch_p, Cursor.touch_l,
        Cursor.read_p, Cursor.read_l, reduceCtorEq, false_imp_iff, implies_true, iff_true]
      omega
  | some t =>
      have hpos := t.messageSize_pos
      simp only [Option.some.injEq, forall_eq']
      by_cases hshort : r.cursor.l - 2 < t.messageSize
      · simp only [if_pos hshort, bodyStart, Cursor.touch_p, Cursor.touch_l, Cursor.read_p,
          Cursor.read_l]
        omega
      · simp only [if_neg hshort, bodyStart, Cursor.skip_p, Cursor.skip_l, Cursor.touch_p,
          Cursor.touch_l, Cursor.read_p, Cursor.read_l]
        omega

/-- A reader at the start of a buffer of `n` bytes, with a queue that never refuses. -/
def sampleReader (n : Nat) : Reader (BusyQueue (Message Rat)) := ⟨.start n, {}, ⟨0, []⟩⟩

/-- A frame that fits: a deletion of 19 bytes. -/
def deleteFrame : Memory := .ofList ([0, 19, 'D'.toUInt8] ++ List.replicate 18 0) 0

theorem delete_frame_respected :
    ∃ r', readNextMessage .little deleteFrame 1 (sampleReader 21) = some (true, r') ∧
      MovesPastFrame deleteFrame (sampleReader 21).cursor r'.cursor := by
  obtain ⟨r', hcall⟩ :
      ∃ r', readNextMessage .little deleteFrame 1 (sampleReader 21) = some (true, r') := ⟨_, rfl⟩
  refine ⟨r', hcall, (frame_respected_iff hcall).mpr fun t ht => Or.inl ?_⟩
  obtain rfl : MessageType.orderDelete = t :=
    Option.some.inj (Eq.trans (by decide +kernel) ht)
  decide +kernel

/-- A buffer with a frame of one byte, the code of an execution, and 30 more bytes
that belong to whatever frames come after it. -/
def shortFrame : Memory := .ofList ([0, 1, 'E'.toUInt8] ++ List.replicate 30 0) 0

/-- `decode` takes the message size of an execution out of a frame of one byte. -/
theorem short_frame_swallows_its_successors :
    ∃ r', readNextMessage .little shortFrame 1 (sampleReader 33) = some (true, r') ∧
      frameLength shortFrame (sampleReader 33).cursor = 1 ∧ r'.cursor.p = 33 ∧
      ¬ MovesPastFrame shortFrame (sampleReader 33).cursor r'.cursor := by
  refine ⟨_, rfl, by decide +kernel, by decide +kernel, ?_⟩
  exact fun h => absurd h.1 (by decide +kernel)

end TradingDesk.Itch
