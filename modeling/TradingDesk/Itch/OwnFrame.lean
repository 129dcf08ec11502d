import TradingDesk.Itch.Stream

/-!
# TradingDesk.Itch.OwnFrame

**Whose bytes a message is made of.** `decode` looks at the bytes left in the whole
buffer and not at the frame, and whether it did anything is dropped. So a message is a
function of its own frame only where the frame is long enough for its code
(`CarriesMessage`); everywhere else there is a buffer with that frame in front in which
`decode` gives up and the message is pushed and counted all the same.
-/

namespace TradingDesk.Itch

open TradingDesk.Core

/-! ### What the decoders look at -/

section Decoders

variable {F : Type} [DoubleArith F] {host : ByteOrder} {mem mem' : Memory}

/-- A field is computed from its own bytes, on every host. -/
theorem decodeField_congr {c c' : Cursor} {k : FieldKind}
    (h : mem.bytes c.p k.storedSize = mem'.bytes c'.p k.storedSize) :
    (decodeField (F := F) host mem c k).1 = (decodeField host mem' c' k).1 := by
  cases k with
  | integer w =>
      exact congrArg (fun bs => FieldValue.integer (host.bigToNative w (host.load bs))) h
  | timestamp =>
      exact congrArg (fun bs => FieldValue.timestamp
        (host.bigToNative 8 (host.load (bs ++ [0, 0]) * 2 ^ 16 % 2 ^ 64))) h
  | char => exact congrArg FieldValue.char (List.cons.inj h).1
  | text n => exact congrArg (fun bs => FieldValue.text (List.map toLower bs)) h
  | price =>
      exact congrArg (fun bs => FieldValue.price
        (priceValue (host.bigToNative priceStoredSize (host.load bs)))) h

theorem decodeFields_congr {c c' : Cursor} {fs : List Field}
    (h : mem.bytes c.p (fieldsSize fs) = mem'.bytes c'.p (fieldsSize fs)) :
    (decodeFields (F := F) host mem c fs).1 = (decodeFields host mem' c' fs).1 := by
  induction fs generalizing c c' with
  | nil => rfl
  | cons f fs ih =>
      rw [fieldsSize_cons, Memory.bytes_add, Memory.bytes_add] at h
      obtain ⟨hone, hrest⟩ := List.append_inj h (by simp)
      have hnext : ∀ (mem : Memory) (c : Cursor),
          (decodeField (F := F) host mem c f.kind).2.p = c.p + f.kind.storedSize := by
        intro mem c
        rw [decodeField_snd, Cursor.read_p]
      have hfield : (decodeField (F := F) host mem c f.kind).1
          = (decodeField host mem' c' f.kind).1 := decodeField_congr hone
      have hfields :
          (decodeFields (F := F) host mem (decodeField (F := F) host mem c f.kind).2 fs).1
          = (decodeFields host mem' (decodeField (F := F) host mem' c' f.kind).2 fs).1 :=
        ih (by rw [hnext, hnext]; exact hrest)
      simp only [decodeFields, hfield, hfields]

/-- With room for the message in both buffers, `decode` makes the same of the same
bytes. -/
theorem MessageType.decode_congr {t : MessageType} {c c' : Cursor} (hl : t.messageSize ≤ c.l)
    (hl' : t.messageSize ≤ c'.l)
    (h : mem.bytes (c.p + 1) (fieldsSize t.fields) = mem'.bytes (c'.p + 1) (fieldsSize t.fields)) :
    (t.decode (F := F) host mem c).2.1 = (t.decode host mem' c').2.1 := by
  have hfields : (decodeFields (F := F) host mem (c.skip 1) t.fields).1
      = (decodeFields host mem' (c'.skip 1) t.fields).1 := decodeFields_congr h
  unfold decode
  rw [if_neg (by omega), if_neg (by omega)]
  simp only [hfields]

end Decoders

/-! ### Two runs -/

variable {Q F : Type} [MessageQueue Q (Message F)] [DoubleArith F]

/-- The call pushes exactly `ms`: with enough attempts it returns `true`, and the queue
has taken these messages and no others. -/
def Pushes (pushed : Q → List (Message F)) (host : ByteOrder) (mem : Memory) (r : Reader Q)
    (ms : List (Message F)) : Prop :=
  ∃ n r', (∀ attempts ≥ n, readNextMessage host mem attempts r = some (true, r')) ∧
    pushed r'.queue = pushed r.queue ++ ms

/-- Buffers that agree on the frame make the reader push the same message, if any. -/
def PushesAlike (pushed : Q → List (Message F)) (host : ByteOrder) (body : List UInt8) : Prop :=
  ∀ (mem₁ mem₂ : Memory) (r₁ r₂ : Reader Q), StartsWith mem₁ r₁.cursor body →
    StartsWith mem₂ r₂.cursor body → ∃ ms, Pushes pushed host mem₁ r₁ ms ∧
      Pushes pushed host mem₂ r₂ ms

/-- In every buffer with the frame in front, a message is pushed, and counted as read,
only if the `decode` it comes from returned `true`. -/
def PushesDecoded (pushed : Q → List (Message F)) (host : ByteOrder) (body : List UInt8) : Prop :=
  ∀ (mem : Memory) (attempts : Nat) (r r' : Reader Q), StartsWith mem r.cursor body →
    readNextMessage host mem attempts r = some (true, r') →
    pushed r'.queue ≠ pushed r.queue ∨ r'.status.read ≠ r.status.read →
    ∃ t m c, MessageType.ofCode? (frameCode mem r.cursor) = some t ∧
      t.decode host mem (bodyStart r.cursor) = (true, m, c) ∧
      pushed r'.queue = pushed r.queue ++ [m]

/-- The body has a code, and all the bytes that its code calls for. -/
def CarriesMessage (body : List UInt8) : Prop :=
  body ≠ [] ∧ ∀ t, bodyType body = some t → t.messageSize ≤ body.length

instance (body : List UInt8) : Decidable (CarriesMessage body) :=
  decidable_of_iff (body ≠ [] ∧ ∀ t ∈ bodyType body, t.messageSize ≤ body.length) Iff.rfl

/-! ### When a message is its frame's -/

section

variable {pushed : Q → List (Message F)} {host : ByteOrder} {body : List UInt8}

/-- A frame that carries its message: what is pushed is what `decode` makes of it. -/
theorem StartsWith.pushes (hq : QueueContract pushed) (hfits : body.length ≤ 65535)
    {mem : Memory} {r : Reader Q} (h : StartsWith mem r.cursor body) (hbody : body ≠ []) :
    Pushes pushed host mem r ((bodyType body).toList.map fun t =>
      (t.decode host mem (bodyStart r.cursor)).2.1) := by
  obtain ⟨code, rest, rfl⟩ := List.exists_cons_of_ne_nil hbody
  have hroom := h.room
  have hlen := h.frameLength_eq hfits
  have hcode := h.frameCode_eq.1
  push_cast at hroom
  have hl : ¬ r.cursor.l < 2 := by omega
  have hall : ¬ r.cursor.l - 2 < frameLength mem r.cursor := by
    rw [hlen]
    omega
  unfold Pushes
  simp only [readNextMessage_eq, if_neg hl, if_neg hall, hcode]
  -- an unknown code is skipped, a known one waits until the queue takes its message
  cases htype : MessageType.ofCode? code with
  | none =>
      refine ⟨0, _, fun _ _ => rfl, ?_⟩
      rw [bodyType, htype]
      exact (List.append_nil _).symm
  | some t =>
      obtain ⟨n, q', stall', hpushed, hread⟩ := hq.messageRead host mem t (frameLength mem r.cursor)
        { r with cursor := bodyStart r.cursor }
      refine ⟨n, _, fun attempts hle =>
        congrArg (Option.map fun r => (true, r)) (hread attempts hle), ?_⟩
      rw [bodyType, htype]
      exact hpushed

theorem CarriesMessage.pushesAlike (hq : QueueContract pushed) (hfits : body.length ≤ 65535)
    (h : CarriesMessage body) : PushesAlike pushed host body := by
  intro mem₁ mem₂ r₁ r₂ h₁ h₂
  obtain ⟨hbody, hsize⟩ := h
  refine ⟨_, h₁.pushes hq hfits hbody, ?_⟩
  have hpush₂ : Pushes pushed host mem₂ r₂ _ := h₂.pushes hq hfits hbody
  cases htype : bodyType body with
  | none =>
      rw [htype, Option.toList_none, List.map_nil] at hpush₂
      rwa [Option.toList_none, List.map_nil]
  | some t =>
      rw [htype] at hpush₂
      obtain ⟨code, rest, rfl⟩ := List.exists_cons_of_ne_nil hbody
      have hsize := hsize t htype
      have hfields : fieldsSize t.fields ≤ rest.length := by
        rw [MessageType.messageSize_eq, List.length_cons] at hsize
        omega
      obtain ⟨k, hk⟩ := Nat.exists_eq_add_of_le hfields
      -- both bodies hold the fields of the message
      have hcut : ∀ {mem : Memory} {c : Cursor}, StartsWith mem c (code :: rest) →
          mem.bytes (c.p + 3) (fieldsSize t.fields) = rest.take (fieldsSize t.fields) := by
        intro mem c hc
        have hrest := hc.frameCode_eq.2
        rw [hk, Memory.bytes_add] at hrest
        rw [← hrest, List.take_left' (by simp)]
      have hroom₁ := h₁.room
      have hroom₂ := h₂.room
      have hdecode : (t.decode (F := F) host mem₂ (bodyStart r₂.cursor)).2.1
          = (t.decode host mem₁ (bodyStart r₁.cursor)).2.1 := by
        have hbytes : mem₂.bytes ((bodyStart r₂.cursor).p + 1) (fieldsSize t.fields)
            = mem₁.bytes ((bodyStart r₁.cursor).p + 1) (fieldsSize t.fields) := by
          rw [bodyStart_p, bodyStart_p]
          exact (hcut h₂).trans (hcut h₁).symm
        push_cast at hroom₁ hroom₂
        exact MessageType.decode_congr (by rw [bodyStart_l]; omega)
          (by rw [bodyStart_l]; omega) hbytes
      simpa [hdecode] using hpush₂

theorem CarriesMessage.pushesDecoded (hq : QueueContract pushed) (hfits : body.length ≤ 65535)
    (h : CarriesMessage body) : PushesDecoded pushed host body := by
  intro mem attempts r r' hstart hcall hcounted
  obtain ⟨hbody, hsize⟩ := h
  obtain ⟨code, rest, rfl⟩ := List.exists_cons_of_ne_nil hbody
  have hroom := hstart.room
  cases readNextMessage_effect hcall with
  | skipped hl hall hcode => exact absurd hcounted (by simp)
  | @decoded t done m c q stall hl hall hcode hdecode hpush =>
      refine ⟨t, m, c, hcode, ?_, hq.pushed_of_pushLoop hpush⟩
      have hsize := hsize t (by rw [← hcode, hstart.frameCode_eq.1]; rfl)
      have hdone : (t.decode (F := F) host mem (bodyStart r.cursor)).1 = true := by
        rw [MessageType.decode_fst, bodyStart_l]
        push_cast at hroom
        omega
      rw [hdecode] at hdone
      replace hdone : done = true := hdone
      rw [hdecode, hdone]

/-- A memory with one frame in it and nothing but the code of a deletion behind it. -/
theorem startsWith_ofList (body : List UInt8) :
    StartsWith (.ofList (frame body) 'D'.toUInt8) (.start (2 + body.length)) body := by
  refine ⟨?_, le_rfl⟩
  rw [← length_frame]
  exact Memory.bytes_ofList_zero _ _

/-- A frame too short for its code, at the end of its buffer: `decode` gives up, and its
message is pushed and counted. -/
theorem PushesDecoded.carriesMessage (hq : QueueContract pushed) (q : Q)
    (hfits : body.length ≤ 65535) (h : PushesDecoded pushed host body) : CarriesMessage body := by
  by_contra hnot
  have hstart := startsWith_ofList body
  have hlen := hstart.frameLength_eq hfits
  -- an empty frame takes its code from the byte behind it
  obtain ⟨t, hcode, hsize⟩ : ∃ t, MessageType.ofCode?
        (frameCode (.ofList (frame body) 'D'.toUInt8) (.start (2 + body.length))) = some t ∧
      body.length < t.messageSize := by
    cases body with
    | nil => exact ⟨.orderDelete, by decide +kernel, by decide⟩
    | cons code rest =>
        simp only [CarriesMessage, ne_eq, reduceCtorEq, not_false_iff, true_and, not_forall,
          Nat.not_le] at hnot
        obtain ⟨t, htype, hlt⟩ := hnot
        exact ⟨t, by rw [hstart.frameCode_eq.1]; exact htype, hlt⟩
  generalize Memory.ofList (frame body) 'D'.toUInt8 = mem at *
  obtain ⟨n, q', stall', -, hread⟩ := hq.messageRead host mem t
    (frameLength mem (.start (2 + body.length))) ⟨bodyStart (.start (2 + body.length)), {}, q⟩
  have hl : ¬ (Cursor.start (2 + body.length)).l < 2 := by
    simp only [Cursor.start]
    omega
  have hall : ¬ (Cursor.start (2 + body.length)).l - 2
      < frameLength mem (.start (2 + body.length)) := by
    rw [hlen]
    simp only [Cursor.start]
    omega
  -- the call counts its message, so `decode` should have succeeded, and there was no room
  have hcall := readNextMessage_eq host mem n (⟨.start (2 + body.length), {}, q⟩ : Reader Q)
  simp only [if_neg hl, if_neg hall, hcode] at hcall
  rw [hread n le_rfl] at hcall
  obtain ⟨t', m, c, hcode', hdecode, -⟩ := h mem n _ _ hstart hcall (Or.inr (by simp))
  obtain rfl : t = t' := Option.some.inj (hcode.symm.trans hcode')
  have hdone : (t.decode (F := F) host mem (bodyStart (.start (2 + body.length)))).1 = true := by
    rw [hdecode]
  rw [MessageType.decode_fst, bodyStart_l] at hdone
  simp only [Cursor.start] at hdone
  omega

/-- **Messages come from their own frames exactly where the frames carry them.** For
every frame: buffers with that frame in front push the same message, and nothing is
pushed or counted without a successful `decode`, if and only if the frame is not empty
and has all the bytes that its code calls for. -/
theorem pushes_own_frame_iff (hq : QueueContract pushed) (q : Q) (host : ByteOrder)
    {body : List UInt8} (hfits : body.length ≤ 65535) :
    (PushesAlike pushed host body ∧ PushesDecoded pushed host body) ↔ CarriesMessage body :=
  ⟨fun h => h.2.carriesMessage hq q hfits,
    fun h => ⟨h.pushesAlike hq hfits, h.pushesDecoded hq hfits⟩⟩

/-- What a call pushes on a frame with a known code. -/
theorem Pushes.eq_decode (hq : QueueContract pushed) {mem : Memory} {r : Reader Q}
    {ms : List (Message F)} (h : Pushes pushed host mem r ms) {t : MessageType}
    (hcode : MessageType.ofCode? (frameCode mem r.cursor) = some t) :
    ms = [(t.decode host mem (bodyStart r.cursor)).2.1] := by
  obtain ⟨n, r', hcall, hpushed⟩ := h
  cases readNextMessage_effect (hcall n le_rfl) with
  | skipped hl hall hnone =>
      rw [hcode] at hnone
      cases hnone
  | @decoded t' done m c q stall hl hall hcode' hdecode hpush =>
      obtain rfl : t = t' := Option.some.inj (hcode.symm.trans hcode')
      rw [hdecode]
      exact List.append_cancel_left (hpushed.symm.trans (hq.pushed_of_pushLoop hpush))

end

/-! ### Two frames -/

/-- A deletion of nineteen bytes carries its message. -/
theorem delete_frame_own_message :
    PushesAlike (BusyQueue.messages (M := Message Rat)) .little
      ('D'.toUInt8 :: List.replicate 18 7) ∧
      PushesDecoded (BusyQueue.messages (M := Message Rat)) .little
        ('D'.toUInt8 :: List.replicate 18 7) :=
  (pushes_own_frame_iff BusyQueue.contract ⟨0, []⟩ .little (by decide)).mpr (by decide +kernel)

/-- The code of a deletion in a frame of one byte: what is pushed is made of the bytes
behind the frame, and at the end of the buffer of none at all. -/
theorem short_frame_foreign_message :
    ¬ PushesAlike (BusyQueue.messages (M := Message Rat)) .little ['D'.toUInt8] ∧
      ¬ PushesDecoded (BusyQueue.messages (M := Message Rat)) .little ['D'.toUInt8] := by
  constructor
  · intro halike
    have hstart : ∀ b, StartsWith (.ofList [0, 1, 'D'.toUInt8] b) (sampleReader 21).cursor
        ['D'.toUInt8] := fun b => ⟨rfl, by decide⟩
    obtain ⟨ms, h₀, h₁⟩ := halike _ _ (sampleReader 21) (sampleReader 21) (hstart 0) (hstart 1)
    have hm₀ := h₀.eq_decode BusyQueue.contract (t := .orderDelete) (by decide +kernel)
    have hm₁ := h₁.eq_decode BusyQueue.contract (t := .orderDelete) (by decide +kernel)
    exact absurd (hm₀.symm.trans hm₁) (by decide +kernel)
  · intro hdecoded
    have hcarries := hdecoded.carriesMessage BusyQueue.contract ⟨0, []⟩ (by decide)
    exact absurd hcarries (by decide +kernel)

end TradingDesk.Itch
