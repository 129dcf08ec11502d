import Mathlib.Data.List.Chain
import TradingDesk.Itch.Stream

/-!
# TradingDesk.Itch.Bounds

**The reader on arbitrary buffers**, well-formed or not. Pointer and remaining length
are moved along three routes: by the frame's length, by `decode`, or, where `decode`
gives up, by the length field alone. `ReadEffect` lists them, and three questions are
answered on each: whether an incomplete frame stays in the buffer, whether every access
is to a byte of the buffer, and whether reading comes to an end with pointer and
remaining length still in step.
-/

namespace TradingDesk.Itch

open TradingDesk.Core

variable {Q F : Type} [MessageQueue Q (Message F)] [DoubleArith F]
variable {host : ByteOrder} {mem : Memory} {attempts : Nat} {r r' : Reader Q}

/-! ### Incomplete frames -/

/-- **Where an incomplete frame is kept.** A call that returns `false` leaves everything as it was,
if and only if fewer than two bytes are left or the whole frame is there: where the length field is
there and the body is not, the length field is consumed. -/
theorem incomplete_frame_kept_iff (host : ByteOrder) (mem : Memory) (attempts : Nat)
    (r : Reader Q) :
    (∀ r', readNextMessage host mem attempts r = some (false, r') → r' = r) ↔
      r.cursor.l < 2 ∨ (frameLength mem r.cursor : Int) ≤ r.cursor.l - 2 := by
  constructor
  · intro hkept
    by_contra! hpartial
    obtain ⟨hl, hbody⟩ := hpartial
    have hcall : readNextMessage host mem attempts r
        = some (false, { r with cursor := r.cursor.skip 2 }) := by
      rw [readNextMessage_eq, if_neg (by omega), if_pos hbody]
    have hcur : r.cursor.skip 2 = r.cursor := congrArg Reader.cursor (hkept _ hcall)
    have hl' := congrArg Cursor.l hcur
    rw [Cursor.skip_l] at hl'
    omega
  · intro hwhole r' hcall
    cases readNextMessage_effect hcall with
    | noLength hl => rfl
    | noBody hl hbody => omega

/-- One byte of a frame that has not arrived is kept. -/
theorem single_byte_kept :
    readNextMessage .little (.ofList [0] 0) 1 (sampleReader 1) = some (false, sampleReader 1) := by
  obtain ⟨r', hcall⟩ : ∃ r', readNextMessage .little (.ofList [0] 0) 1 (sampleReader 1)
      = some (false, r') := ⟨_, rfl⟩
  have hkept := (incomplete_frame_kept_iff .little (.ofList [0] 0) 1 (sampleReader 1)).mpr
    (Or.inl (by decide))
  rw [hcall, hkept r' hcall]

/-- The first three bytes of a deletion of 19 bytes: the call returns `false`, and the
length field is gone. -/
theorem length_field_lost :
    ∃ r', readNextMessage .little (.ofList [0, 19, 'D'.toUInt8] 0) 1 (sampleReader 3)
        = some (false, r') ∧
      r'.cursor = ⟨2, 1, true⟩ ∧ r' ≠ sampleReader 3 := by
  refine ⟨_, rfl, rfl, ?_⟩
  intro heq
  exact absurd (congrArg (fun r => r.cursor.p) heq) (by decide)

/-! ### Accesses -/

theorem bodyStart_inBounds {c : Cursor} (hl : 2 ≤ c.l) :
    (bodyStart c).inBounds = (c.inBounds && decide (3 ≤ c.l)) := by
  have hread : c.read 2 = c.skip 2 := Cursor.read_of_le hl
  have hone : decide ((1 : Nat) ≤ c.l - (2 : Nat)) = decide (3 ≤ c.l) := by
    rw [decide_eq_decide]
    push_cast
    omega
  rw [bodyStart, hread, ← hone]
  rfl

theorem MessageType.decode_inBounds (t : MessageType) (c : Cursor) :
    (t.decode (F := F) host mem c).2.2.inBounds = c.inBounds := by
  rw [t.decode_snd_snd host mem c]
  split <;> rfl

/-- **Every access is to a byte of the buffer, unless the buffer ends with an empty
frame.** The code is looked at before the frame's length is; where the frame is empty and
nothing is left behind its length field, there is no code. -/
theorem reads_in_bounds_iff {done : Bool}
    (h : readNextMessage host mem attempts r = some (done, r')) (hin : r.cursor.inBounds = true) :
    r'.cursor.inBounds = true ↔ ¬ (r.cursor.l = 2 ∧ frameLength mem r.cursor = 0) := by
  -- the only access that is not checked is the one to the code
  have hstart : 2 ≤ r.cursor.l → frameLength mem r.cursor ≤ r.cursor.l - 2 →
      ((bodyStart r.cursor).inBounds = true ↔
        ¬ (r.cursor.l = 2 ∧ frameLength mem r.cursor = 0)) := by
    intro hl hbody
    rw [bodyStart_inBounds hl, hin, Bool.true_and, decide_eq_true_iff]
    omega
  cases readNextMessage_effect h with
  | noLength hl =>
      refine iff_of_true hin ?_
      intro hempty
      obtain ⟨htwo, -⟩ := hempty
      omega
  | noBody hl hbody =>
      refine iff_of_true hin ?_
      intro hempty
      obtain ⟨htwo, hzero⟩ := hempty
      omega
  | skipped hl hbody hcode => exact hstart hl hbody
  | @decoded t done m c q stall hl hbody hcode hdecode _ =>
      have hc : (t.decode (F := F) host mem (bodyStart r.cursor)).2.2.inBounds
          = (bodyStart r.cursor).inBounds := t.decode_inBounds _
      rw [hdecode] at hc
      change c.inBounds = true ↔ _
      rw [hc]
      exact hstart hl hbody

/-- A whole deletion is read without leaving its buffer. -/
theorem delete_frame_in_bounds :
    ∃ r', readNextMessage .little deleteFrame 1 (sampleReader 21) = some (true, r') ∧
      r'.cursor.inBounds = true := by
  obtain ⟨r', hcall⟩ :
      ∃ r', readNextMessage .little deleteFrame 1 (sampleReader 21) = some (true, r') := ⟨_, rfl⟩
  refine ⟨r', hcall, (reads_in_bounds_iff hcall rfl).mpr ?_⟩
  decide

/-- A buffer of one empty frame: the code is read from behind it. -/
theorem empty_frame_read_past_end :
    ∃ r', readNextMessage .little (.ofList [0, 0] 0) 1 (sampleReader 2) = some (true, r') ∧
      r'.cursor.inBounds = false := ⟨_, rfl, rfl⟩

/-! ### Reading to the end -/

/-- Pointer and remaining length are in step: nothing was taken that was not there, and
together they still point to the end of the buffer. -/
structure Covers (stop : Nat) (c : Cursor) : Prop where
  nonneg : 0 ≤ c.l
  stop : c.p + c.l = stop

theorem Covers.start (n : Nat) : Covers n (.start n) :=
  ⟨Int.natCast_nonneg n, by simp [Cursor.start]⟩

theorem Covers.skip {stop n : Nat} {c : Cursor} (h : Covers stop c) (hn : n ≤ c.l) :
    Covers stop (c.skip n) := by
  obtain ⟨hnonneg, hstop⟩ := h
  refine ⟨?_, ?_⟩
  · rw [Cursor.skip_l]
    omega
  · rw [Cursor.skip_l, Cursor.skip_p]
    push_cast
    omega

theorem Covers.bodyStart {stop : Nat} {c : Cursor} (h : Covers stop c) (hl : 2 ≤ c.l) :
    Covers stop (bodyStart c) := by
  obtain ⟨hnonneg, hstop⟩ := h.skip (n := 2) (by exact_mod_cast hl)
  exact ⟨hnonneg, hstop⟩

theorem Covers.decode {stop : Nat} {c : Cursor} (h : Covers stop c) (t : MessageType) :
    Covers stop (t.decode (F := F) host mem c).2.2 := by
  rw [t.decode_snd_snd host mem c]
  split
  · exact h
  · exact h.skip (by omega)

/-- **Step lemma.** Along every route the cursor stays in step, and a call that returns
`true` takes at least the length field. -/
theorem covers_of_readNextMessage {stop : Nat} {done : Bool}
    (h : readNextMessage host mem attempts r = some (done, r')) (hr : Covers stop r.cursor) :
    Covers stop r'.cursor ∧ (done = true → r'.cursor.l ≤ r.cursor.l - 2) := by
  cases readNextMessage_effect h with
  | noLength hl => exact ⟨hr, nofun⟩
  | noBody hl hbody => exact ⟨hr.skip (by exact_mod_cast hl), nofun⟩
  | skipped hl hbody hcode =>
      refine ⟨(hr.bodyStart hl).skip hbody, fun _ => ?_⟩
      change r.cursor.l - 2 - (frameLength mem r.cursor : Int) ≤ _
      omega
  | @decoded t done m c q stall hl hbody hcode hdecode _ =>
      have hcovers : Covers stop (t.decode (F := F) host mem (bodyStart r.cursor)).2.2 :=
        (hr.bodyStart hl).decode t
      have hcur := t.decode_snd_snd (F := F) host mem (bodyStart r.cursor)
      rw [hdecode] at hcovers hcur
      refine ⟨hcovers, fun _ => ?_⟩
      change c.l ≤ _
      -- a failed `decode` leaves the cursor behind the length field, a successful one goes on
      replace hcur : c = _ := hcur
      rw [hcur]
      split
      · exact le_of_eq (bodyStart_l r.cursor)
      · rw [Cursor.skip_l, bodyStart_l]
        omega

/-- A call that returned `true`. -/
def Succeeds (host : ByteOrder) (mem : Memory) (r r' : Reader Q) : Prop :=
  ∃ attempts, readNextMessage host mem attempts r = some (true, r')

/-- **Run lemma.** After any number of calls that returned `true`, the cursor is in step,
and two bytes were taken for each of them. -/
theorem covers_of_isChain {stop : Nat} {rs : List (Reader Q)} (hr : Covers stop r.cursor)
    (h : (r :: rs).IsChain (Succeeds host mem)) :
    2 * (rs.length : Int) ≤ r.cursor.l ∧ ∀ r' ∈ r :: rs, Covers stop r'.cursor := by
  induction rs generalizing r with
  | nil => exact ⟨hr.nonneg, fun r' hr' => List.mem_singleton.mp hr' ▸ hr⟩
  | cons r₁ rs ih =>
      obtain ⟨⟨attempts, hcall⟩, hrest⟩ := List.isChain_cons_cons.mp h
      obtain ⟨hr₁, hless⟩ := covers_of_readNextMessage hcall hr
      obtain ⟨hlen, hall⟩ := ih hr₁ hrest
      have := hless rfl
      refine ⟨by rw [List.length_cons]; push_cast; omega, ?_⟩
      intro r' hr'
      rcases List.mem_cons.mp hr' with rfl | hr'
      · exact hr
      · exact hall r' hr'

/-- Every call returns, given enough attempts to push. -/
theorem QueueContract.readNextMessage {pushed : Q → List (Message F)} (hq : QueueContract pushed)
    (host : ByteOrder) (mem : Memory) (r : Reader Q) :
    ∃ n done r', ∀ attempts ≥ n, Itch.readNextMessage host mem attempts r = some (done, r') := by
  simp only [readNextMessage_eq]
  by_cases hl : r.cursor.l < 2
  · exact ⟨0, false, r, fun _ _ => if_pos hl⟩
  simp only [if_neg hl]
  by_cases hbody : r.cursor.l - 2 < frameLength mem r.cursor
  · exact ⟨0, false, _, fun _ _ => if_pos hbody⟩
  simp only [if_neg hbody]
  cases MessageType.ofCode? (frameCode mem r.cursor) with
  | none => exact ⟨0, true, _, fun _ _ => rfl⟩
  | some t =>
      obtain ⟨n, q', stall', -, hread⟩ := hq.messageRead host mem t (frameLength mem r.cursor)
        { r with cursor := bodyStart r.cursor }
      exact ⟨n, true, _, fun attempts hle =>
        congrArg (Option.map fun r => (true, r)) (hread attempts hle)⟩

/-- The loop ends, from any cursor that is in step. -/
theorem QueueContract.readStream {pushed : Q → List (Message F)} (hq : QueueContract pushed)
    (host : ByteOrder) (mem : Memory) {stop : Nat} {r : Reader Q} (hr : Covers stop r.cursor) :
    ∃ n r', Covers stop r'.cursor ∧ ∀ attempts ≥ n, ∀ calls : Nat, r.cursor.l < 2 * calls →
      Itch.readStream host mem attempts calls r = some r' := by
  -- the remaining length goes down by two with every call that returns `true`
  induction hk : r.cursor.l.toNat using Nat.strong_induction_on generalizing r with
  | _ k ih =>
      have hnonneg := hr.nonneg
      obtain ⟨n, done, r₁, hcall⟩ := hq.readNextMessage host mem r
      obtain ⟨hr₁, hless⟩ := covers_of_readNextMessage (hcall n le_rfl) hr
      cases done with
      | false =>
          refine ⟨n, r₁, hr₁, ?_⟩
          intro attempts hle calls hcalls
          obtain ⟨calls, rfl⟩ := Nat.exists_eq_add_of_le' (show 1 ≤ calls by omega)
          rw [Itch.readStream, hcall attempts hle]
      | true =>
          have hless := hless rfl
          have hnonneg₁ := hr₁.nonneg
          obtain ⟨n', r', hr', hloop⟩ := ih r₁.cursor.l.toNat (by omega) hr₁ rfl
          refine ⟨max n n', r', hr', ?_⟩
          intro attempts hle calls hcalls
          obtain ⟨calls, rfl⟩ := Nat.exists_eq_add_of_le' (show 1 ≤ calls by omega)
          rw [Itch.readStream, hcall attempts (le_trans (le_max_left n n') hle)]
          exact hloop attempts (le_trans (le_max_right n n') hle) calls
            (by push_cast at hcalls; omega)

/-- **Reading any buffer ends.** From the start of a buffer of `n` bytes, whatever they
are and whatever is in memory behind them, at most `n / 2` calls return `true`; in every
state on the way the remaining length is not negative and pointer and remaining length
add up to the end of the buffer; and the loop ends in such a state. -/
theorem reading_ends {pushed : Q → List (Message F)} (hq : QueueContract pushed) (host : ByteOrder)
    (mem : Memory) (n : Nat) (status : MessagesStatus) (q : Q) :
    (∀ rs : List (Reader Q), (⟨.start n, status, q⟩ :: rs).IsChain (Succeeds host mem) →
      rs.length ≤ n / 2 ∧ ∀ r ∈ (⟨.start n, status, q⟩ :: rs), Covers n r.cursor) ∧
    ∃ k r', Covers n r'.cursor ∧ ∀ attempts ≥ k, ∀ calls > n / 2,
      readStream host mem attempts calls ⟨.start n, status, q⟩ = some r' := by
  have hstart : Covers n (Reader.mk (.start n) status q).cursor := .start n
  constructor
  · intro rs hchain
    obtain ⟨hlen, hall⟩ := covers_of_isChain hstart hchain
    refine ⟨?_, hall⟩
    change 2 * (rs.length : Int) ≤ n at hlen
    omega
  · obtain ⟨k, r', hr', hloop⟩ := hq.readStream host mem hstart
    refine ⟨k, r', hr', ?_⟩
    intro attempts hle calls hcalls
    refine hloop attempts hle calls ?_
    change (n : Int) < _
    omega

/-- Eight bytes that are no frames, and a queue that refuses twice. -/
theorem sample_reading_ends :
    ∃ k r', Covers 8 r'.cursor ∧ ∀ attempts ≥ k, ∀ calls > 4,
      readStream .big (.ofList [0, 0, 0, 1, 'D'.toUInt8, 0, 0, 200] 7) attempts calls
        ⟨.start 8, {}, (⟨2, []⟩ : BusyQueue (Message Rat))⟩ = some r' :=
  (reading_ends BusyQueue.contract .big _ 8 {} ⟨2, []⟩).2

end TradingDesk.Itch
