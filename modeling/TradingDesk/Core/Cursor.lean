import TradingDesk.Core.Bytes

/-!
# TradingDesk.Core.Cursor

**Reading a buffer through a pointer and a remaining length.** The two are
threaded by reference and moved by hand in the programs this is about, so they
are two separate fields here and nothing ties them together but the proofs.

The remaining length is an `Int`: where the program's `size_t` would wrap around,
`l` goes below zero, and showing that it stays nonnegative shows that the
unsigned arithmetic was exact. `inBounds` is a ghost field: it stays `true` as
long as every access was to a byte the remaining length still covers.
-/

namespace TradingDesk.Core

/-! ### Memory -/

/-- Addressable bytes. What lies behind a buffer is memory like any other. -/
abbrev Memory := Nat → UInt8

namespace Memory

/-- The `n` bytes from address `p` on. -/
def bytes (mem : Memory) : Nat → Nat → List UInt8
  | _, 0 => []
  | p, n + 1 => mem p :: bytes mem (p + 1) n

/-- Memory that starts with the bytes `bs`, followed by `beyond`. -/
def ofList (bs : List UInt8) (beyond : UInt8) : Memory := fun i => bs.getD i beyond

@[simp] theorem bytes_zero (mem : Memory) (p : Nat) : mem.bytes p 0 = [] := rfl

@[simp] theorem length_bytes (mem : Memory) (p n : Nat) : (mem.bytes p n).length = n := by
  induction n generalizing p with
  | zero => rfl
  | succ n ih => rw [bytes, List.length_cons, ih]

theorem bytes_add (mem : Memory) (p m n : Nat) :
    mem.bytes p (m + n) = mem.bytes p m ++ mem.bytes (p + m) n := by
  induction m generalizing p with
  | zero => simp
  | succ m ih => rw [Nat.succ_add, bytes, ih, bytes, List.cons_append, Nat.succ_add_eq_add_succ]

/-- A piece of the bytes from `p` on. -/
theorem take_drop_bytes (mem : Memory) (p : Nat) {i w n : Nat} (h : i + w ≤ n) :
    ((mem.bytes p n).drop i).take w = mem.bytes (p + i) w := by
  obtain ⟨k, rfl⟩ := Nat.exists_eq_add_of_le h
  rw [Nat.add_assoc, bytes_add, List.drop_left' (by simp), bytes_add, List.take_left' (by simp)]

/-- Cutting the bytes from `p` on at a known split. -/
theorem bytes_eq_append {mem : Memory} {p n : Nat} {as bs : List UInt8}
    (h : mem.bytes p n = as ++ bs) :
    mem.bytes p as.length = as ∧ mem.bytes (p + as.length) bs.length = bs := by
  have hn : n = as.length + bs.length := by
    have := congrArg List.length h
    simpa using this
  rw [hn, bytes_add] at h
  exact List.append_inj h (by simp)

theorem bytes_ofList (as bs : List UInt8) (b : UInt8) :
    (ofList (as ++ bs) b).bytes as.length bs.length = bs := by
  induction bs generalizing as with
  | nil => rfl
  | cons c bs ih =>
      have hhead : ofList (as ++ c :: bs) b as.length = c := by
        simp [ofList]
      have htail := ih (as ++ [c])
      rw [List.append_assoc, List.length_append] at htail
      rw [List.length_cons, bytes, hhead]
      exact congrArg (c :: ·) htail

theorem bytes_ofList_zero (bs : List UInt8) (b : UInt8) :
    (ofList bs b).bytes 0 bs.length = bs := bytes_ofList [] bs b

end Memory

/-! ### The cursor -/

/-- A read position: the pointer, the remaining length, and whether every access
so far stayed below the remaining length of its moment. -/
@[ext] structure Cursor where
  /-- The pointer, as an offset into memory. -/
  p : Nat
  /-- The remaining length. -/
  l : Int
  /-- Ghost: no access was out of bounds. -/
  inBounds : Bool
  deriving Repr, DecidableEq

namespace Cursor

/-- A cursor at the start of a buffer of `n` bytes. -/
def start (n : Nat) : Cursor := ⟨0, n, true⟩

/-- Move past `n` bytes without looking at them. -/
def skip (c : Cursor) (n : Nat) : Cursor := { c with p := c.p + n, l := c.l - n }

/-- Record an access to the `n` bytes at the pointer. -/
def touch (c : Cursor) (n : Nat) : Cursor :=
  { c with inBounds := c.inBounds && decide ((n : Int) ≤ c.l) }

/-- Access the `n` bytes at the pointer and move past them. -/
def read (c : Cursor) (n : Nat) : Cursor := (c.touch n).skip n

@[simp] theorem skip_p (c : Cursor) (n : Nat) : (c.skip n).p = c.p + n := rfl
@[simp] theorem skip_l (c : Cursor) (n : Nat) : (c.skip n).l = c.l - n := rfl
@[simp] theorem skip_inBounds (c : Cursor) (n : Nat) : (c.skip n).inBounds = c.inBounds := rfl
@[simp] theorem touch_p (c : Cursor) (n : Nat) : (c.touch n).p = c.p := rfl
@[simp] theorem touch_l (c : Cursor) (n : Nat) : (c.touch n).l = c.l := rfl
@[simp] theorem read_p (c : Cursor) (n : Nat) : (c.read n).p = c.p + n := rfl
@[simp] theorem read_l (c : Cursor) (n : Nat) : (c.read n).l = c.l - n := rfl
@[simp] theorem read_inBounds (c : Cursor) (n : Nat) :
    (c.read n).inBounds = (c.inBounds && decide ((n : Int) ≤ c.l)) := rfl

@[simp] theorem touch_of_le {c : Cursor} {n : Nat} (h : (n : Int) ≤ c.l) : c.touch n = c := by
  simp [touch, h]

/-- Within the remaining length a read is a skip. -/
theorem read_of_le {c : Cursor} {n : Nat} (h : (n : Int) ≤ c.l) : c.read n = c.skip n := by
  rw [read, touch_of_le h]

theorem skip_skip (c : Cursor) (m n : Nat) : (c.skip m).skip n = c.skip (m + n) := by
  simp [skip, Nat.add_assoc, Int.sub_sub]

@[simp] theorem skip_zero (c : Cursor) : c.skip 0 = c := by
  simp [skip]

/-- Two reads in a row are one read of both. -/
theorem read_read (c : Cursor) (m n : Nat) : (c.read m).read n = c.read (m + n) := by
  have hle : (decide ((m : Int) ≤ c.l) && decide ((n : Int) ≤ c.l - m))
      = decide (((m + n : Nat) : Int) ≤ c.l) := by
    rw [← Bool.decide_and, decide_eq_decide]
    omega
  refine Cursor.ext ?_ ?_ ?_
  · simp [Nat.add_assoc]
  · simp [Int.sub_sub]
  · rw [read_inBounds, read_inBounds, read_inBounds, read_l, Bool.and_assoc, hle]

/-- `c'` is further on in the bytes that `c` has left. -/
def Ahead (c c' : Cursor) : Prop := ∃ n : Nat, (n : Int) ≤ c.l ∧ c' = c.skip n

theorem Ahead.refl {c : Cursor} (h : 0 ≤ c.l) : c.Ahead c := ⟨0, h, c.skip_zero.symm⟩

theorem ahead_skip {c : Cursor} {n : Nat} (h : (n : Int) ≤ c.l) : c.Ahead (c.skip n) := ⟨n, h, rfl⟩

theorem Ahead.trans {a b c : Cursor} (hab : a.Ahead b) (hbc : b.Ahead c) : a.Ahead c := by
  obtain ⟨m, hm, rfl⟩ := hab
  obtain ⟨n, hn, rfl⟩ := hbc
  rw [skip_l] at hn
  exact ⟨m + n, by push_cast; omega, skip_skip a m n⟩

theorem Ahead.nonneg {c c' : Cursor} (h : c.Ahead c') : 0 ≤ c'.l := by
  obtain ⟨n, hn, rfl⟩ := h
  rw [skip_l]
  omega

/-- From the start of a buffer on, pointer and remaining length stay within it. -/
theorem Ahead.of_start {n : Nat} {c : Cursor} (h : (start n).Ahead c) :
    c.inBounds = true ∧ 0 ≤ c.l ∧ (c.p : Int) + c.l = n := by
  obtain ⟨k, hk, rfl⟩ := h
  have hl : (start n).l = n := rfl
  have hp : (start n).p = 0 := rfl
  rw [hl] at hk
  rw [skip_l, skip_p, hl, hp]
  exact ⟨rfl, by omega, by push_cast; omega⟩

end Cursor

/-! ### Writing -/

/-- A buffer and the position up to which it was written. -/
structure Writer where
  cursor : Cursor
  buffer : List UInt8

namespace Writer

/-- At the start of a zeroed buffer of `n` bytes. -/
def start (n : Nat) : Writer := ⟨.start n, List.replicate n 0⟩

/-- Write bytes at the pointer and move past them. -/
def write (w : Writer) (bs : List UInt8) : Writer where
  cursor := w.cursor.read bs.length
  buffer := w.buffer.take w.cursor.p ++ bs ++ w.buffer.drop (w.cursor.p + bs.length)

/-- The writer of a buffer of `n` bytes once `bs` was written, all of it in bounds. -/
def wrote (n : Nat) (bs : List UInt8) : Writer :=
  ⟨(Cursor.start n).skip bs.length, bs ++ List.replicate (n - bs.length) 0⟩

theorem start_eq_wrote (n : Nat) : start n = wrote n [] := by
  simp [start, wrote]

theorem write_wrote {n : Nat} {done bs : List UInt8} (h : done.length + bs.length ≤ n) :
    (wrote n done).write bs = wrote n (done ++ bs) := by
  have hroom : (bs.length : Int) ≤ ((Cursor.start n).skip done.length).l := by
    simp only [Cursor.skip_l, Cursor.start]
    omega
  simp only [write, wrote, Cursor.read_of_le hroom, Cursor.skip_skip, List.length_append, mk.injEq,
    true_and]
  have hp : ((Cursor.start n).skip done.length).p = done.length := Nat.zero_add _
  rw [hp, List.take_left' rfl, List.drop_length_add_append, List.drop_replicate, Nat.sub_sub]

end Writer

end TradingDesk.Core
