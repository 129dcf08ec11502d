import Mathlib.Algebra.Group.Nat.Defs
import Mathlib.Data.List.Nodup
import Mathlib.Data.List.Perm.Lattice
import Mathlib.Logic.Function.Basic

/-!
# TradingDesk.Core.UnorderedMap

**Hash maps with unspecified iteration order.** `UnorderedMap M K V` is the
interface of a C++ unordered map with unique keys: the operations, and what each
of them does to the stored pairs. Where a table puts its entries, and hence the
order in which it lists them, depends on its capacity and its whole history; the
interface says nothing about it, so a fact proved here holds for every table
implementation and every iteration order.

Nor does it say which insertions a table throws at, only that `overflows` knows: `emplace?` is
`emplace` with that exception, and `Admits` are the lists that go in without one.

`find?` is the abstraction: two tables with the same `find?` hold the same pairs,
and every law below is stated through it. `AssocList` is the plainest table.
-/

namespace TradingDesk.Core

/-- A hash map from `K` to `V`, with its iteration order left open. -/
class UnorderedMap (M : Type) (K V : outParam Type) where
  /-- The table without entries. -/
  empty : M
  /-- The value stored under a key. -/
  find? : M → K → Option V
  /-- The number of entries. -/
  size : M → Nat
  /-- The entries in iteration order. -/
  toList : M → List (K × V)
  /-- The insertion of a key throws. -/
  overflows : M → K → Bool
  /-- Insert a pair unless the key is already present: the table afterwards, where the
  insertion does not throw. Where it does, no table of the program is meant. -/
  emplace : M → K → V → M
  /-- Write a value through an iterator to the entry of a key. -/
  assign : M → K → V → M
  /-- Remove the entry of a key, if there is one. -/
  erase : M → K → M
  /-- Remove all entries. -/
  clear : M → M
  /-- Make room for a number of entries; `none` is the exception thrown when the
  table cannot be made that large. -/
  reserve : M → Nat → Option M
  find?_empty (k : K) : find? empty k = none
  find?_emplace_self (m : M) (k : K) (v : V) :
    find? (emplace m k v) k = some ((find? m k).getD v)
  find?_emplace_of_ne (m : M) {k k' : K} (v : V) (h : k' ≠ k) :
    find? (emplace m k v) k' = find? m k'
  find?_assign_self (m : M) (k : K) (v : V) :
    find? (assign m k v) k = (find? m k).map fun _ => v
  find?_assign_of_ne (m : M) {k k' : K} (v : V) (h : k' ≠ k) :
    find? (assign m k v) k' = find? m k'
  find?_erase_self (m : M) (k : K) : find? (erase m k) k = none
  find?_erase_of_ne (m : M) {k k' : K} (h : k' ≠ k) : find? (erase m k) k' = find? m k'
  find?_clear (m : M) (k : K) : find? (clear m) k = none
  find?_reserve {m m' : M} {n : Nat} (h : reserve m n = some m') (k : K) :
    find? m' k = find? m k
  /-- An empty table can be made as large as any table there is, short of the sizes
  whose buckets a `size_t` cannot count. -/
  reserve_of_le_size (m m' : M) {n : Nat} (h : n ≤ size m') (hn : n < 2 ^ 60) :
    (reserve (clear m) n).isSome
  size_eq (m : M) : size m = (toList m).length
  nodup_keys (m : M) : ((toList m).map Prod.fst).Nodup
  mem_toList (m : M) (k : K) (v : V) : (k, v) ∈ toList m ↔ find? m k = some v

namespace UnorderedMap

attribute [simp] find?_empty find?_emplace_self find?_assign_self find?_erase_self find?_clear

variable {M N K V : Type} [UnorderedMap M K V] [UnorderedMap N K V]

/-! ### Tables with the same contents -/

theorem nodup_toList (m : M) : (toList m).Nodup := (nodup_keys m).of_map

/-- Tables holding the same pairs list them in two orders of one collection,
whatever their implementations and histories. -/
theorem toList_perm {m : M} {n : N} (h : ∀ k, find? m k = find? n k) :
    (toList m).Perm (toList n) := by
  refine (List.perm_ext_iff_of_nodup (nodup_toList m) (nodup_toList n)).mpr ?_
  intro e
  obtain ⟨k, v⟩ := e
  rw [mem_toList, mem_toList, h k]

/-- A table that has no keys lists none. -/
theorem toList_eq_nil {m : M} (h : ∀ k, find? m k = none) : toList m = [] := by
  refine List.eq_nil_iff_forall_not_mem.mpr ?_
  intro e hmem
  have hfind := (mem_toList m e.1 e.2).mp hmem
  rw [h] at hfind
  cases hfind

/-- A table with one more key lists one more pair. -/
theorem toList_perm_cons [DecidableEq K] {m : M} {n : N} {k : K} {v : V} (hfree : find? m k = none)
    (h : find? n = Function.update (find? m) k (some v)) :
    (toList n).Perm ((k, v) :: toList m) := by
  have hnew : (k, v) ∉ toList m := by
    rw [mem_toList, hfree]
    nofun
  refine (List.perm_ext_iff_of_nodup (nodup_toList n)
    (List.nodup_cons.mpr ⟨hnew, nodup_toList m⟩)).mpr ?_
  intro e
  obtain ⟨k', v'⟩ := e
  rw [List.mem_cons, mem_toList, mem_toList, h, Prod.mk.injEq]
  by_cases hk : k' = k
  · subst hk
    simp [hfree, eq_comm]
  · simp [hk]

/-! ### The operations on contents -/

section Contents

variable [DecidableEq K]

theorem find?_emplace (m : M) (k : K) (v : V) :
    find? (emplace m k v) = Function.update (find? m) k (some ((find? m k).getD v)) := by
  funext k'
  by_cases h : k' = k
  · rw [h, find?_emplace_self, Function.update_self]
  · rw [find?_emplace_of_ne m v h, Function.update_of_ne h]

theorem find?_assign (m : M) (k : K) (v : V) :
    find? (assign m k v) = Function.update (find? m) k ((find? m k).map fun _ => v) := by
  funext k'
  by_cases h : k' = k
  · rw [h, find?_assign_self, Function.update_self]
  · rw [find?_assign_of_ne m v h, Function.update_of_ne h]

theorem find?_erase (m : M) (k : K) :
    find? (erase m k) = Function.update (find? m) k none := by
  funext k'
  by_cases h : k' = k
  · rw [h, find?_erase_self, Function.update_self]
  · rw [find?_erase_of_ne m h, Function.update_of_ne h]

end Contents

/-! ### Insertions that may throw -/

/-- `emplace`, with the exception. -/
def emplace? (m : M) (k : K) (v : V) : Option M :=
  if overflows m k then none else some (emplace m k v)

theorem emplace?_of_not_overflows {m : M} {k : K} (h : overflows m k = false) (v : V) :
    emplace? m k v = some (emplace m k v) := by
  rw [emplace?, h]
  rfl

theorem emplace?_of_overflows {m : M} {k : K} (h : overflows m k = true) (v : V) :
    emplace? m k v = none := if_pos h

/-! ### Filling a table from a list of pairs -/

/-- `emplace` the pairs of a list one after the other. -/
def emplaceAll (m : M) (entries : List (K × V)) : M :=
  entries.foldl (fun m e => emplace m e.1 e.2) m

@[simp] theorem emplaceAll_nil (m : M) : emplaceAll m [] = m := rfl

@[simp] theorem emplaceAll_cons (m : M) (e : K × V) (entries : List (K × V)) :
    emplaceAll m (e :: entries) = emplaceAll (emplace m e.1 e.2) entries := rfl

/-- `emplace` the pairs of a list one after the other, with the exception. -/
def emplaceAll? : M → List (K × V) → Option M
  | m, [] => some m
  | m, e :: entries => (emplace? m e.1 e.2).bind fun m => emplaceAll? m entries

/-- No insertion throws when the pairs of a list go in one after the other. -/
def Admits (m : M) (entries : List (K × V)) : Prop := (emplaceAll? m entries).isSome

instance (m : M) (entries : List (K × V)) : Decidable (Admits m entries) :=
  inferInstanceAs (Decidable (_ = true))

theorem admits_nil (m : M) : Admits m ([] : List (K × V)) := rfl

theorem admits_cons {m : M} {e : K × V} {entries : List (K × V)} :
    Admits m (e :: entries) ↔ overflows m e.1 = false ∧ Admits (emplace m e.1 e.2) entries := by
  rw [Admits, emplaceAll?]
  cases hover : overflows m e.1 with
  | true => simp [emplace?_of_overflows hover]
  | false => simp [emplace?_of_not_overflows hover, Admits]

/-- Such a list goes in as it does without the check. -/
theorem emplaceAll?_of_admits {m : M} {entries : List (K × V)} (h : Admits m entries) :
    emplaceAll? m entries = some (emplaceAll m entries) := by
  induction entries generalizing m with
  | nil => rfl
  | cons e entries ih =>
      obtain ⟨hfirst, hrest⟩ := admits_cons.mp h
      rw [emplaceAll?, emplace?_of_not_overflows hfirst, Option.bind_some, ih hrest,
        emplaceAll_cons]

/-- A table, once it is emptied and made large enough for `n` pairs, takes the pairs of a list: no
insertion throws. -/
def Refills (m : M) (n : Nat) (entries : List (K × V)) : Prop :=
  ∀ room, reserve (clear m) n = some room → Admits room entries

/-- **First wins.** A key keeps the value it had, or else takes the value of its
first pair in the list. -/
theorem find?_emplaceAll [DecidableEq K] (m : M) (entries : List (K × V)) (k : K) :
    find? (emplaceAll m entries) k = (find? m k).or (entries.lookup k) := by
  induction entries generalizing m with
  | nil => simp
  | cons e entries ih =>
      obtain ⟨k', v⟩ := e
      rw [emplaceAll_cons, ih]
      by_cases hk : k = k'
      · subst hk
        cases hm : find? m k <;> simp [hm]
      · rw [find?_emplace_of_ne m v hk, List.lookup_cons, beq_false_of_ne hk]

/-- A table that was filled from a list holds pairs of the list. -/
theorem mem_of_find?_emplaceAll [DecidableEq K] {entries : List (K × V)} {k : K} {v : V}
    (h : find? (emplaceAll (empty : M) entries) k = some v) : (k, v) ∈ entries := by
  rw [find?_emplaceAll, find?_empty, Option.none_or] at h
  obtain ⟨before, after, rfl, -⟩ := List.lookup_eq_some_iff.mp h
  exact List.mem_append_right _ List.mem_cons_self

/-! ### Lists with distinct keys -/

/-- In a list with distinct keys, membership of a pair is lookup of its key. -/
theorem mem_iff_lookup [DecidableEq K] {entries : List (K × V)}
    (h : (entries.map Prod.fst).Nodup) (k : K) (v : V) :
    (k, v) ∈ entries ↔ entries.lookup k = some v := by
  induction entries with
  | nil => simp
  | cons e entries ih =>
      obtain ⟨k', v'⟩ := e
      rw [List.map_cons, List.nodup_cons] at h
      by_cases hk : k = k'
      · subst hk
        have hnot : (k, v) ∉ entries := fun hmem => h.1 (List.mem_map.mpr ⟨_, hmem, rfl⟩)
        simp [hnot, eq_comm]
      · rw [List.mem_cons, List.lookup_cons, beq_false_of_ne hk, ← ih h.2]
        simp [hk]

/-- Lookup in a list whose keys were renamed apart. -/
theorem lookup_map {K' V' : Type} [DecidableEq K] [DecidableEq K'] {f : K → K'}
    (hf : Function.Injective f) (g : V → V') (entries : List (K × V)) (k : K) :
    (entries.map fun e => (f e.1, g e.2)).lookup (f k) = (entries.lookup k).map g := by
  induction entries with
  | nil => rfl
  | cons e entries ih =>
      obtain ⟨k', v⟩ := e
      rw [List.map_cons, List.lookup_cons, List.lookup_cons, ih]
      by_cases hk : k = k'
      · rw [hk, beq_self_eq_true, beq_self_eq_true]
        rfl
      · rw [beq_false_of_ne hk, beq_false_of_ne (hf.ne hk)]

/-- A key that a list of pairs has a value for is one of its keys. -/
theorem mem_keys_of_lookup [DecidableEq K] {entries : List (K × V)} {k : K}
    (h : (entries.lookup k).isSome) : k ∈ entries.map Prod.fst := by
  by_contra hk
  have hnone : entries.lookup k = none := by
    rw [List.lookup_eq_none_iff]
    intro e he
    exact bne_iff_ne.mpr fun hke => hk (hke ▸ List.mem_map_of_mem he)
  rw [hnone] at h
  cases h

/-- A table reads back from its own listing. -/
theorem lookup_toList [DecidableEq K] (m : M) (k : K) :
    (toList m).lookup k = find? m k := by
  refine Option.ext fun v => ?_
  rw [← mem_iff_lookup (nodup_keys m), mem_toList]

end UnorderedMap

/-! ### The plainest table: a list of pairs with distinct keys -/

/-- A list of pairs no two of which share a key. -/
structure AssocList (K V : Type) where
  /-- The pairs, in iteration order. -/
  entries : List (K × V)
  /-- No key occurs twice. -/
  nodup : (entries.map Prod.fst).Nodup

namespace AssocList

variable {K V : Type} [DecidableEq K]

/-- Append a pair unless its key is present. -/
def emplace (m : AssocList K V) (k : K) (v : V) : AssocList K V :=
  if h : k ∈ m.entries.map Prod.fst then m
  else ⟨m.entries ++ [(k, v)], by
    rw [List.map_append]
    exact m.nodup.append (List.nodup_singleton k) (by simpa using h)⟩

/-- Overwrite the value of a key in place. -/
def assign (m : AssocList K V) (k : K) (v : V) : AssocList K V :=
  ⟨m.entries.map fun e => if e.1 = k then (k, v) else e, by
    have hkeys : (m.entries.map fun e => if e.1 = k then (k, v) else e).map Prod.fst
        = m.entries.map Prod.fst := by
      rw [List.map_map]
      refine List.map_congr_left fun e _ => ?_
      by_cases he : e.1 = k <;> simp [he]
    rw [hkeys]
    exact m.nodup⟩

/-- Drop the pair of a key. -/
def erase (m : AssocList K V) (k : K) : AssocList K V :=
  ⟨m.entries.filter fun e => decide (e.1 ≠ k),
    m.nodup.sublist (List.filter_sublist.map Prod.fst)⟩

theorem lookup_emplace (m : AssocList K V) (k k' : K) (v : V) :
    (m.emplace k v).entries.lookup k'
      = if k' = k then some ((m.entries.lookup k).getD v) else m.entries.lookup k' := by
  unfold emplace
  by_cases h : k ∈ m.entries.map Prod.fst
  · rw [dif_pos h]
    by_cases hk : k' = k
    · subst hk
      obtain ⟨⟨_, w⟩, hmem, rfl⟩ := List.mem_map.mp h
      simp [(UnorderedMap.mem_iff_lookup m.nodup _ w).mp hmem]
    · rw [if_neg hk]
  · have hnone : m.entries.lookup k = none :=
      Option.not_isSome_iff_eq_none.mp (mt UnorderedMap.mem_keys_of_lookup h)
    rw [dif_neg h, List.lookup_append]
    by_cases hk : k' = k
    · subst hk
      simp [hnone]
    · simp [hk, List.lookup_cons, beq_false_of_ne hk]

theorem lookup_assign (m : AssocList K V) (k k' : K) (v : V) :
    (m.assign k v).entries.lookup k'
      = if k' = k then (m.entries.lookup k).map fun _ => v else m.entries.lookup k' := by
  obtain ⟨entries, hnodup⟩ := m
  simp only [assign]
  clear hnodup
  induction entries with
  | nil => simp
  | cons e entries ih =>
      obtain ⟨a, w⟩ := e
      rw [List.map_cons]
      by_cases hk : k' = k
      · subst hk
        by_cases ha : a = k'
        · simp [ha]
        · rw [if_pos rfl] at ih ⊢
          simp [List.lookup_cons, beq_false_of_ne (Ne.symm ha), ha, ih]
      · rw [if_neg hk] at ih ⊢
        by_cases ha : a = k
        · simp [List.lookup_cons, ha, beq_false_of_ne hk, ih]
        · simp [List.lookup_cons, ha, ih]

theorem lookup_erase (m : AssocList K V) (k k' : K) :
    (m.erase k).entries.lookup k' = if k' = k then none else m.entries.lookup k' := by
  refine Option.ext fun v => ?_
  rw [← UnorderedMap.mem_iff_lookup (m.erase k).nodup]
  by_cases hk : k' = k
  · simp [erase, hk]
  · rw [if_neg hk, ← UnorderedMap.mem_iff_lookup m.nodup]
    simp [erase, hk]

instance : UnorderedMap (AssocList K V) K V where
  empty := ⟨[], List.nodup_nil⟩
  find? m k := m.entries.lookup k
  size m := m.entries.length
  toList m := m.entries
  overflows _ _ := false
  emplace := emplace
  assign := assign
  erase := erase
  clear _ := ⟨[], List.nodup_nil⟩
  reserve m _ := some m
  find?_empty _ := rfl
  find?_emplace_self m k v := by rw [lookup_emplace, if_pos rfl]
  find?_emplace_of_ne m _ _ v h := by rw [lookup_emplace, if_neg h]
  find?_assign_self m k v := by rw [lookup_assign, if_pos rfl]
  find?_assign_of_ne m _ _ v h := by rw [lookup_assign, if_neg h]
  find?_erase_self m k := by rw [lookup_erase, if_pos rfl]
  find?_erase_of_ne m _ _ h := by rw [lookup_erase, if_neg h]
  find?_clear _ _ := rfl
  find?_reserve h k := by rw [Option.some.inj h]
  reserve_of_le_size _ _ _ _ _ := rfl
  size_eq _ := rfl
  nodup_keys m := m.nodup
  mem_toList m k v := UnorderedMap.mem_iff_lookup m.nodup k v

/-- New keys come behind the old ones, in their order. -/
theorem entries_emplaceAll {m : AssocList K V} {entries : List (K × V)}
    (h : ((m.entries ++ entries).map Prod.fst).Nodup) :
    (UnorderedMap.emplaceAll m entries).entries = m.entries ++ entries := by
  induction entries generalizing m with
  | nil => simp
  | cons e entries ih =>
      have hfree : e.1 ∉ m.entries.map Prod.fst := by
        intro hmem
        rw [List.map_append] at h
        exact List.disjoint_of_nodup_append h hmem (by simp)
      have hone : (m.emplace e.1 e.2).entries = m.entries ++ [e] := by
        rw [emplace, dif_neg hfree]
      have hrest := @ih (m.emplace e.1 e.2) (by rw [hone]; simpa using h)
      rw [hone, List.append_assoc] at hrest
      exact hrest

/-- A list takes every pair. -/
theorem admits (m : AssocList K V) (entries : List (K × V)) : UnorderedMap.Admits m entries := by
  induction entries generalizing m with
  | nil => exact UnorderedMap.admits_nil m
  | cons e entries ih => exact UnorderedMap.admits_cons.mpr ⟨rfl, ih _⟩

end AssocList

end TradingDesk.Core
