import Mathlib.Data.List.Dedup
import Mathlib.Tactic.NormNum
import TradingDesk.Exec.Engine

/-!
# TradingDesk.Exec.RobinHood

**The engine's own table** (`robin_hood.h`, `Table`, as an `unordered_flat_map` of 64-bit keys).
What it holds is what any table holds; what is its own are the buckets, which say how large it is
made, where its entries stand and which insertions throw.

A bucket has an info byte: zero if it is free, and otherwise the distance from the bucket that the
hash of its key names, in steps of `mInfoInc`, with a few bits of the hash in between. The byte is
full after a few steps, and then the next insertion makes the steps smaller or the table larger.
If the steps cannot get smaller, and the table is hardly filled, it throws: 128 keys whose
hashes agree in their nine low bits are enough (`crowd_overflows`).
-/

namespace TradingDesk.Exec

open TradingDesk.Core
open UnorderedMap (Admits emplaceAll)
open ExecutionEngine (runOrder Fits)

namespace RobinHood

/-! ### Sizes -/

/-- `calcMaxNumElementsAllowed`, with a `MaxLoadFactor100` of 80. -/
def calcMaxNumElementsAllowed (maxElements : Nat) : Nat :=
  if maxElements ≤ (2 ^ 64 - 1) / 100 then maxElements * 80 / 100 else maxElements / 100 * 80

/-- `calcNumElementsWithBuffer`. -/
def calcNumElementsWithBuffer (numElements : Nat) : Nat :=
  numElements + min (calcMaxNumElementsAllowed numElements) 255

/-- The loop of `reserve`, with the number of times that `newSize` can be doubled before it
wraps around to zero. That ends the loop, and `overflow_error` is thrown. -/
def growUntil (minElementsAllowed : Nat) : Nat → Nat → Option Nat
  | 0, _ => none
  | left + 1, newSize =>
    if calcMaxNumElementsAllowed newSize < minElementsAllowed then
      growUntil minElementsAllowed left (newSize * 2)
    else some newSize

theorem growUntil_isSome {c newSize left k : Nat} (hk : k < left)
    (h : c ≤ calcMaxNumElementsAllowed (newSize * 2 ^ k)) : (growUntil c left newSize).isSome := by
  induction left generalizing newSize k with
  | zero => omega
  | succ left ih =>
      rw [growUntil]
      split
      · rename_i hsmall
        cases k with
        | zero =>
            rw [pow_zero, Nat.mul_one] at h
            omega
        | succ k =>
            rw [pow_succ', ← Nat.mul_assoc] at h
            exact ih (Nat.lt_of_succ_lt_succ hk) h
      · rfl

/-- Far more elements than fit into memory are allowed. -/
theorem growUntil_of_lt {c : Nat} (h : c < 2 ^ 60) : (growUntil c 61 8).isSome := by
  refine growUntil_isSome (k := 58) (by norm_num) ?_
  norm_num [calcMaxNumElementsAllowed]
  omega

/-! ### Buckets -/

/-- `hash_int`, with a 128-bit product: the sum of its halves. -/
def hashInt (obj : UInt64) : Nat :=
  let product := obj.toNat * 0xde5fb9d2630458e9
  (product / 2 ^ 64 + product % 2 ^ 64) % 2 ^ 64

/-- An info byte and the key that stands there, if the byte is not zero. -/
structure Bucket where
  info : Nat
  key : UInt64

/-- The members of a table that insertions read and write. Values go wherever their keys go. -/
structure Buckets where
  /-- `mInfo` and the keys of `mKeyVals`. The byte behind the last one, the sentinel, is not zero
  and smaller than any that is compared with it. -/
  buckets : List Bucket
  numElements : Nat
  mask : Nat
  maxNumElementsAllowed : Nat
  infoInc : Nat
  infoHashShift : Nat

namespace Buckets

/-- `init`: nothing is allocated yet. The one byte there is is the first of `mMask`. -/
def init : Buckets := ⟨[⟨0, 0⟩], 0, 0, 0, 32, 59⟩

/-- `init_data`. -/
def initData (maxElements : Nat) : Buckets :=
  ⟨List.replicate (calcNumElementsWithBuffer maxElements) ⟨0, 0⟩, 0, maxElements - 1,
    calcMaxNumElementsAllowed maxElements, 32, 59⟩

/-- `keyToIdx`: the index and the info byte of a key in its first bucket. -/
def keyToIdx (t : Buckets) (key : UInt64) : Nat × Nat :=
  (hashInt key &&& t.mask, t.infoInc + hashInt key >>> t.infoHashShift)

/-- `nextWhileLess`, over the buckets from an index on. -/
def nextWhileLess (infoInc : Nat) : List Bucket → Nat → Nat → Nat × Nat × List Bucket
  | [], idx, info => (idx, info, [])
  | b :: rest, idx, info =>
    if info < b.info then nextWhileLess infoInc rest (idx + 1) (info + infoInc)
    else (idx, info, b :: rest)

/-- The loop of `doInsert` over potential matches; `none` if the key is there. -/
def nextWhileEqual (infoInc : Nat) (key : UInt64) :
    List Bucket → Nat → Nat → Option (Nat × Nat × List Bucket)
  | [], idx, info => some (idx, info, [])
  | b :: rest, idx, info =>
    if info = b.info then
      if b.key = key then none else nextWhileEqual infoInc key rest (idx + 1) (info + infoInc)
    else some (idx, info, b :: rest)

/-- The loop of `insert_move`, which knows that the key is not there. -/
def nextWhileLessOrEqual (infoInc : Nat) : List Bucket → Nat → Nat → Nat × Nat × List Bucket
  | [], idx, info => (idx, info, [])
  | b :: rest, idx, info =>
    if info ≤ b.info then nextWhileLessOrEqual infoInc rest (idx + 1) (info + infoInc)
    else (idx, info, b :: rest)

/-- `shiftUp`, from the bucket that a new one takes to the next empty spot: what was there moves on
by one, and its byte grows by a step. The flag says that a byte has become too large for another
step. The buffer behind the buckets always has an empty spot. -/
def shiftUp (infoInc : Nat) : Bucket → List Bucket → List Bucket × Bool
  | new, [] => ([new], false)
  | new, b :: rest =>
    if b.info = 0 then (new :: rest, false)
    else
      let info := (b.info + infoInc) % 256
      let (rest, full) := shiftUp infoInc ⟨info, b.key⟩ rest
      (new :: rest, decide (info + infoInc > 255) || full)

/-- What `doInsert` and `insert_move` do with the bucket they have found. -/
def place (t : Buckets) (idx info : Nat) (key : UInt64) (rest : List Bucket) : Buckets :=
  let (rest, full) := shiftUp t.infoInc ⟨info % 256, key⟩ rest
  { t with
    buckets := t.buckets.take idx ++ rest
    numElements := t.numElements + 1
    maxNumElementsAllowed :=
      if decide (info + t.infoInc > 255) || full then 0 else t.maxNumElementsAllowed }

/-- `try_increase_info`; `none` if the steps cannot get smaller. -/
def tryIncreaseInfo (t : Buckets) : Option Buckets :=
  if t.infoInc ≤ 2 then none
  else some { t with
    infoInc := t.infoInc / 2
    infoHashShift := t.infoHashShift + 1
    buckets := t.buckets.map fun b => ⟨b.info / 2, b.key⟩
    maxNumElementsAllowed := calcMaxNumElementsAllowed (t.mask + 1) }

/-- `insert_move`; `none` is its exception. -/
def insertMove (t : Buckets) (key : UInt64) : Option Buckets :=
  (if t.maxNumElementsAllowed = 0 then t.tryIncreaseInfo else some t).map fun t =>
    let (idx, info) := t.keyToIdx key
    let (idx, info, rest) := nextWhileLessOrEqual t.infoInc (t.buckets.drop idx) idx info
    t.place idx (info % 256) key rest

/-- The keys in the order of their buckets. -/
def keys (t : Buckets) : List UInt64 := (t.buckets.filter fun b => b.info ≠ 0).map Bucket.key

/-- `rehashPowerOfTwo`. -/
def rehashPowerOfTwo (t : Buckets) (numBuckets : Nat) : Option Buckets :=
  t.keys.foldlM insertMove (initData numBuckets)

/-- `increase_size`; `none` is the exception of a table that is hardly filled. -/
def increaseSize (t : Buckets) : Option Buckets :=
  if t.mask = 0 then some (initData 8)
  else
    let maxNumElementsAllowed := calcMaxNumElementsAllowed (t.mask + 1)
    match if t.numElements < maxNumElementsAllowed then t.tryIncreaseInfo else none with
    | some t => some t
    | none =>
      if t.numElements * 2 < maxNumElementsAllowed then none
      else t.rehashPowerOfTwo ((t.mask + 1) * 2)

/-- `doInsert`, with the number of times that it may still go around: every round but the last one
makes the table larger or the steps smaller, and a round with smaller steps is followed by the
last. -/
def doInsert (key : UInt64) : Nat → Buckets → Option Buckets
  | 0, _ => none
  | rounds + 1, t =>
    let (idx, info) := t.keyToIdx key
    let (idx, info, rest) := nextWhileLess t.infoInc (t.buckets.drop idx) idx info
    match nextWhileEqual t.infoInc key rest idx info with
    | none => some t
    | some (idx, info, rest) =>
      if t.numElements ≥ t.maxNumElementsAllowed then t.increaseSize.bind (doInsert key rounds)
      else some (t.place idx info key rest)

/-- `emplace`. A number of buckets that is a `size_t` is doubled 61 times at most. -/
def emplace (t : Buckets) (key : UInt64) : Option Buckets := doInsert key 64 t

/-- `shiftDown`, from the bucket that is emptied on. -/
def shiftDown (infoInc : Nat) : List Bucket → List Bucket
  | [] => []
  | [_] => [⟨0, 0⟩]
  | _ :: b :: rest =>
    if b.info ≥ 2 * infoInc then ⟨b.info - infoInc, b.key⟩ :: shiftDown infoInc (b :: rest)
    else ⟨0, 0⟩ :: b :: rest

/-- The loop of `erase`, over the buckets from an index on: the index of the key. -/
def eraseIdx (infoInc : Nat) (key : UInt64) : List Bucket → Nat → Nat → Option Nat
  | [], _, _ => none
  | b :: rest, idx, info =>
    if info = b.info ∧ b.key = key then some idx
    else if info + infoInc ≤ (rest.head?.map Bucket.info).getD 1 then
      eraseIdx infoInc key rest (idx + 1) (info + infoInc)
    else none

/-- `erase`. -/
def erase (t : Buckets) (key : UInt64) : Buckets :=
  let (idx, info) := t.keyToIdx key
  match eraseIdx t.infoInc key (t.buckets.drop idx) idx info with
  | none => t
  | some idx => { t with
      buckets := t.buckets.take idx ++ shiftDown t.infoInc (t.buckets.drop idx)
      numElements := t.numElements - 1 }

/-- `clear`. An empty table, whose bytes are zero anyway, keeps its steps. -/
def clear (t : Buckets) : Buckets :=
  let t := { t with buckets := t.buckets.map fun _ => ⟨0, 0⟩ }
  if t.numElements = 0 then t
  else { t with numElements := 0, infoInc := 32, infoHashShift := 59 }

/-- `reserve`, which starts from `InitialNumElements`. -/
def reserve (t : Buckets) (c : Nat) : Option Buckets :=
  (growUntil (max c t.numElements) 61 8).bind t.rehashPowerOfTwo

@[simp] theorem keys_clear (t : Buckets) : t.clear.keys = [] := by
  rw [clear]
  split <;> simp [keys]

theorem numElements_clear (t : Buckets) : t.clear.numElements = 0 := by
  rw [clear]
  split
  · assumption
  · rfl

/-- An empty table is made from scratch. -/
theorem reserve_clear (t : Buckets) {n size : Nat} (h : growUntil n 61 8 = some size) :
    t.clear.reserve n = some (initData size) := by
  rw [reserve, numElements_clear, Nat.max_zero, h, Option.bind_some, rehashPowerOfTwo, keys_clear]
  rfl

/-- It has room for what fits into memory. -/
theorem reserve_clear_isSome (t : Buckets) {n : Nat} (h : n < 2 ^ 60) :
    (t.clear.reserve n).isSome := by
  obtain ⟨size, hsize⟩ := Option.isSome_iff_exists.mp (growUntil_of_lt h)
  rw [reserve_clear t hsize]
  rfl

end Buckets

/-! ### The table -/

/-- What a table holds, and its buckets. -/
structure Table (V : Type) where
  contents : AssocList UInt64 V
  buckets : Buckets

namespace Table

variable {V : Type}

/-- The entries in the order of their buckets. -/
def toList (m : Table V) : List (UInt64 × V) :=
  m.buckets.keys.dedup.filterMap (fun k => (m.contents.entries.lookup k).map fun v => (k, v)) ++
    m.contents.entries.filter fun e => e.1 ∉ m.buckets.keys

theorem mem_toList (m : Table V) (k : UInt64) (v : V) :
    (k, v) ∈ m.toList ↔ m.contents.entries.lookup k = some v := by
  rw [toList, List.mem_append, List.mem_filterMap, List.mem_filter,
    UnorderedMap.mem_iff_lookup m.contents.nodup]
  by_cases hk : k ∈ m.buckets.keys
  · simp [hk]
  · simp [hk]

theorem nodup_keys (m : Table V) : (m.toList.map Prod.fst).Nodup := by
  rw [toList, List.map_append, List.map_filterMap]
  refine List.Nodup.append ?_ (m.contents.nodup.sublist (List.filter_sublist.map Prod.fst)) ?_
  · refine List.Nodup.filterMap ?_ (List.nodup_dedup _)
    intro k k' key hk hk'
    simp only [Option.map_map, Option.mem_def, Option.map_eq_some_iff] at hk hk'
    obtain ⟨_, -, rfl⟩ := hk
    obtain ⟨_, -, h⟩ := hk'
    exact h.symm
  · -- the keys of the first part stand in buckets
    intro key hkey hrest
    obtain ⟨k, hmem, hk⟩ := List.mem_filterMap.mp hkey
    simp only [Option.map_map, Option.map_eq_some_iff] at hk
    obtain ⟨_, -, rfl⟩ := hk
    obtain ⟨e, he, heq⟩ := List.mem_map.mp hrest
    have hfree := (List.mem_filter.mp he).2
    rw [heq] at hfree
    exact absurd (List.mem_dedup.mp hmem) (of_decide_eq_true hfree)

theorem length_toList (m : Table V) : m.toList.length = m.contents.entries.length := by
  refine List.Perm.length_eq ((List.perm_ext_iff_of_nodup (m.nodup_keys.of_map)
    (m.contents.nodup.of_map)).mpr fun e => ?_)
  rw [mem_toList, ← UnorderedMap.mem_iff_lookup m.contents.nodup]

instance : UnorderedMap (Table V) UInt64 V where
  empty := ⟨UnorderedMap.empty, .init⟩
  find? m k := UnorderedMap.find? m.contents k
  size m := m.contents.entries.length
  toList := toList
  overflows m k := (m.buckets.emplace k).isNone
  emplace m k v := ⟨m.contents.emplace k v, (m.buckets.emplace k).getD m.buckets⟩
  assign m k v := { m with contents := m.contents.assign k v }
  erase m k := ⟨m.contents.erase k, m.buckets.erase k⟩
  clear m := ⟨UnorderedMap.empty, m.buckets.clear⟩
  reserve m n := (m.buckets.reserve n).map fun buckets => { m with buckets := buckets }
  find?_empty k := UnorderedMap.find?_empty (M := AssocList UInt64 V) k
  find?_emplace_self m := UnorderedMap.find?_emplace_self m.contents
  find?_emplace_of_ne m _ _ := UnorderedMap.find?_emplace_of_ne m.contents
  find?_assign_self m := UnorderedMap.find?_assign_self m.contents
  find?_assign_of_ne m _ _ := UnorderedMap.find?_assign_of_ne m.contents
  find?_erase_self m := UnorderedMap.find?_erase_self m.contents
  find?_erase_of_ne m _ _ := UnorderedMap.find?_erase_of_ne m.contents
  find?_clear m := UnorderedMap.find?_clear m.contents
  find?_reserve h k := by
    obtain ⟨_, -, rfl⟩ := Option.map_eq_some_iff.mp h
    rfl
  reserve_of_le_size m _ _ _ hn :=
    Option.isSome_map.trans (m.buckets.reserve_clear_isSome hn)
  size_eq m := m.length_toList.symm
  nodup_keys := nodup_keys
  mem_toList := mem_toList

theorem reserve_clear_isSome (m : Table V) {n : Nat} (h : n < 2 ^ 60) :
    (UnorderedMap.reserve (UnorderedMap.clear m) n).isSome :=
  Option.isSome_map.trans (m.buckets.reserve_clear_isSome h)

/-- Where the buckets hold the keys of the contents in their order, the table lists the contents. -/
theorem toList_eq {m : Table V} (h : m.buckets.keys = m.contents.entries.map Prod.fst) :
    m.toList = m.contents.entries := by
  obtain ⟨⟨entries, hnodup⟩, buckets⟩ := m
  dsimp only at h
  have hnone : entries.filter (fun e => decide (e.1 ∉ entries.map Prod.fst)) = [] := by
    rw [List.filter_eq_nil_iff]
    intro e he
    simpa using ⟨e.2, he⟩
  simp only [toList]
  rw [h, hnodup.dedup, hnone, List.append_nil, List.filterMap_map]
  calc entries.filterMap ((fun k => (entries.lookup k).map fun v => (k, v)) ∘ Prod.fst)
      = entries.filterMap some := by
        refine List.filterMap_congr fun e he => ?_
        simp [(UnorderedMap.mem_iff_lookup hnodup e.1 e.2).mp he]
    _ = entries := List.filterMap_some

end Table

/-! ### Insertions one after the other -/

/-- The buckets after the insertion of keys one after the other. -/
def Buckets.emplaceAll (t : Buckets) (keys : List UInt64) : Option Buckets :=
  keys.foldlM Buckets.emplace t

namespace Table

variable {V : Type}

/-- The buckets of a table take the keys of a list. -/
theorem emplaceAll?_buckets (m : Table V) (entries : List (UInt64 × V)) :
    (UnorderedMap.emplaceAll? m entries).map Table.buckets
      = m.buckets.emplaceAll (entries.map Prod.fst) := by
  induction entries generalizing m with
  | nil => rfl
  | cons e entries ih =>
      rw [UnorderedMap.emplaceAll?, Buckets.emplaceAll, List.map_cons, List.foldlM_cons]
      cases hinto : m.buckets.emplace e.1 with
      | none =>
          have hover : UnorderedMap.overflows m e.1 = true := by
            show (m.buckets.emplace e.1).isNone = true
            rw [hinto]
            rfl
          rw [UnorderedMap.emplace?_of_overflows hover]
          rfl
      | some t =>
          have hover : UnorderedMap.overflows m e.1 = false := by
            show (m.buckets.emplace e.1).isNone = false
            rw [hinto]
            rfl
          have hbuckets : (UnorderedMap.emplace m e.1 e.2).buckets = t := by
            show (m.buckets.emplace e.1).getD m.buckets = t
            rw [hinto]
            rfl
          rw [UnorderedMap.emplace?_of_not_overflows hover, Option.bind_some, ih, hbuckets]
          rfl

theorem emplaceAll_contents (m : Table V) (entries : List (UInt64 × V)) :
    (UnorderedMap.emplaceAll m entries).contents = UnorderedMap.emplaceAll m.contents entries := by
  induction entries generalizing m with
  | nil => rfl
  | cons e entries ih => exact ih _

theorem admits_iff {m : Table V} {entries : List (UInt64 × V)} :
    UnorderedMap.Admits m entries ↔ (m.buckets.emplaceAll (entries.map Prod.fst)).isSome := by
  rw [← emplaceAll?_buckets, Option.isSome_map]
  rfl

end Table

/-! ### Keys that share a bucket -/

/-- Multiples of one number. The hashes of the first 181 of them are multiples of 512, every
second one of 1024, and their five high bits are zero. -/
def crowded (j : Nat) : UInt64 := .ofNat (7351355 * j)

theorem crowded_inj {i j : Nat} (hi : i < 2 ^ 40) (hj : j < 2 ^ 40) (h : crowded i = crowded j) :
    i = j := by
  have h' := congrArg UInt64.toNat h
  rw [crowded, crowded, UInt64.toNat_ofNat_of_lt' (by norm_num; omega),
    UInt64.toNat_ofNat_of_lt' (by norm_num; omega)] at h'
  omega

/-- The first 128 of them, those with a hash that is a multiple of 1024 in front. -/
def crowd : List UInt64 := (List.range' 2 64 2 ++ List.range' 1 64 2).map crowded

theorem nodup_crowd : crowd.Nodup := by
  have hjs : (List.range' 2 64 2 ++ List.range' 1 64 2).Nodup := by decide +kernel
  have hsmall : ∀ j ∈ List.range' 2 64 2 ++ List.range' 1 64 2, j < 2 ^ 40 := by decide +kernel
  exact hjs.map_on fun _ hi _ hj heq => crowded_inj (hsmall _ hi) (hsmall _ hj) heq

theorem length_crowd : crowd.length = 128 := by simp [crowd]

section

set_option maxRecDepth 100000

/-- **The 128th of them throws**, in a table that grows as they come. -/
theorem crowd_overflows : Buckets.init.emplaceAll crowd = none := by
  have h : (Buckets.init.emplaceAll crowd).isNone = true := by decide +kernel
  exact Option.isNone_iff_eq_none.mp h

/-- It does so too where room was made for 128 orders. -/
theorem crowd_overflows_reserved : (Buckets.initData 256).emplaceAll crowd = none := by
  have h : ((Buckets.initData 256).emplaceAll crowd).isNone = true := by decide +kernel
  exact Option.isNone_iff_eq_none.mp h

/-- With room for 410, they are divided among two buckets, and stand there in their order. -/
theorem keys_crowd : ((Buckets.initData 1024).emplaceAll crowd).map Buckets.keys = some crowd := by
  decide +kernel

end

/-- No table takes them that was emptied and made large enough for 128 orders. -/
theorem Table.not_refills_crowd {V : Type} (m : Table V) {entries : List (UInt64 × V)}
    (h : entries.map Prod.fst = crowd) : ¬ UnorderedMap.Refills m entries.length entries := by
  intro hrefills
  have hlen : entries.length = 128 := by rw [← length_crowd, ← h, List.length_map]
  have hgrown : growUntil 128 61 8 = some 256 := by decide
  have hroom : UnorderedMap.reserve (UnorderedMap.clear m) 128
      = some ⟨UnorderedMap.empty, .initData 256⟩ :=
    congrArg (Option.map _) (m.buckets.reserve_clear hgrown)
  rw [hlen] at hrefills
  have htaken := admits_iff.mp (hrefills _ hroom)
  rw [h, crowd_overflows_reserved] at htaken
  cases htaken

/-- What an order of ten shares is stored as. -/
def bought (reference : UInt64) : UInt64 × Order :=
  (reference, ⟨ExecutionEngine.convertToFix (1 : Rat), 10⟩)

theorem length_bought : (crowd.map bought).length = 128 := by rw [List.length_map, length_crowd]

theorem keys_bought (references : List UInt64) :
    (references.map bought).map Prod.fst = references := by
  rw [List.map_map]
  exact List.map_id references

/-- A table with room for 410 orders, and all of the crowd in it. -/
def crowdedTable : Table Order :=
  emplaceAll ((UnorderedMap.reserve (UnorderedMap.clear UnorderedMap.empty) 410).getD
    UnorderedMap.empty) (crowd.map bought)

theorem toList_crowdedTable : UnorderedMap.toList crowdedTable = crowd.map bought := by
  have hgrown : growUntil 410 61 8 = some 1024 := by decide
  have hroom :
      (UnorderedMap.reserve (UnorderedMap.clear (UnorderedMap.empty : Table Order)) 410).getD
      UnorderedMap.empty = ⟨UnorderedMap.empty, .initData 1024⟩ :=
    congrArg (fun t => (Option.map _ t).getD _) (Buckets.init.reserve_clear hgrown)
  rw [crowdedTable, hroom]
  generalize hm : (⟨UnorderedMap.empty, .initData 1024⟩ : Table Order) = m
  have hcontents : (emplaceAll m (crowd.map bought)).contents.entries = crowd.map bought := by
    rw [Table.emplaceAll_contents, ← hm]
    refine AssocList.entries_emplaceAll (m := UnorderedMap.empty) ?_
    rw [show (UnorderedMap.empty : AssocList UInt64 Order).entries = [] from rfl, List.nil_append,
      keys_bought]
    exact nodup_crowd
  have hbuckets :
      ((UnorderedMap.emplaceAll? m (crowd.map bought)).map Table.buckets).map Buckets.keys
      = some crowd := by
    rw [Table.emplaceAll?_buckets, keys_bought, ← hm]
    exact keys_crowd
  cases hall : UnorderedMap.emplaceAll? m (crowd.map bought) with
  | none =>
      rw [hall] at hbuckets
      cases hbuckets
  | some n =>
      have hadmits : Admits m (crowd.map bought) := by
        rw [Admits, hall]
        rfl
      obtain rfl : emplaceAll m (crowd.map bought) = n :=
        Option.some.inj ((UnorderedMap.emplaceAll?_of_admits hadmits).symm.trans hall)
      rw [hall] at hbuckets
      have hkeys := Option.some.inj hbuckets
      exact (Table.toList_eq (by rw [hcontents, keys_bought]; exact hkeys)).trans hcontents

/-! ### Runs of additions -/

/-- The addition of a buying order of ten shares. -/
def buyAdd (reference : UInt64) : OrderRecord Rat := ⟨reference, 0, 10, 1, 'A'.toUInt8, true⟩

section

variable {T : Type} [UnorderedMap T UInt64 Order]

/-- A run of additions is to its end if the buying map takes them. -/
theorem along_fits_buyAdds {e : ExecutionEngine T} {references : List UInt64} :
    Along runOrder Fits e (references.map buyAdd) ↔
      Admits e.allBuyOrders (references.map bought) := by
  induction references generalizing e with
  | nil => exact iff_of_true trivial rfl
  | cons reference references ih =>
      have hone : e.Fits (buyAdd reference) ↔
        UnorderedMap.overflows e.allBuyOrders reference = false :=
        ⟨fun h => h _ rfl, fun h into hinto => by
          obtain rfl := Option.some.inj hinto
          exact h⟩
      rw [List.map_cons, List.map_cons, UnorderedMap.admits_cons]
      exact and_congr hone (ih (e := (e.runOrder (buyAdd reference)).2))

end

/-- The buckets after a run of additions. -/
theorem buckets_buyAdds {e : ExecutionEngine (Table Order)} {references : List UInt64} :
    Along runOrder Fits e (references.map buyAdd) ↔
      (e.allBuyOrders.buckets.emplaceAll references).isSome := by
  rw [along_fits_buyAdds, Table.admits_iff, keys_bought]

/-- The addition of a crowd is left by an exception. -/
theorem replay?_crowd : ExecutionEngine.replay? (Table Order) (crowd.map buyAdd) = none := by
  cases hrun : ExecutionEngine.replay? (Table Order) (crowd.map buyAdd) with
  | none => rfl
  | some out =>
      have halong := (ExecutionEngine.run?_eq_some_iff.mp hrun).1
      have htaken := buckets_buyAdds.mp halong
      have hinit : (ExecutionEngine.empty : ExecutionEngine (Table Order)).allBuyOrders.buckets
        = .init := rfl
      rw [hinit, crowd_overflows] at htaken
      cases htaken

/-- The deletion of an order. -/
def deletion (reference : UInt64) : OrderRecord Rat := ⟨reference, 0, 0, 0, 'D'.toUInt8, true⟩

/-- As many of the crowd as a table takes, and the deletion of 26 of them: the info bytes are full,
and the table is filled to less than two fifths. -/
def thinnedRun : List (OrderRecord Rat) :=
  (crowd.take 127).map buyAdd ++ (crowd.take 26).map deletion

end RobinHood

end TradingDesk.Exec
