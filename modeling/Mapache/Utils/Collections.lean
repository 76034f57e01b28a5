import Mathlib.Data.Finset.Union
import Mapache.Common
import Mapache.Lib.Table

/-!
# Bloom filters and index sets

The two collections of `utils/collections` that the index is built from. A `BloomFilter` never
reports an inserted ID as absent (`contains_insert_self`, `contains_insert`); its size comes from a
floating point formula, so the size is a parameter. An `IndexSet` enumerates its elements; the
agreement of its vector and its map is part of the type, and both operations keep it
(`lookup_iff_append`, `removeFrom_spec`), so that numbers stay valid (`ofOps_valid`).
-/

set_option autoImplicit false

namespace Mapache

open Lib

/-! ## Bloom filters -/

/-- What `BloomFilter::new` computes from the number of items: the number of hashes and the number
of bits. -/
structure BloomShape where
  numHashes : Nat
  bitCount : Nat

/-- A Bloom filter, as the set of its one bits. -/
structure BloomFilter where
  bits : Finset Nat
  numHashes : Nat
  bitCount : Nat

namespace BloomFilter

/-- The empty filter. -/
def new (shape : BloomShape) : BloomFilter := ⟨∅, shape.numHashes, shape.bitCount⟩

/-- The two 64-bit halves of the first half of the ID. -/
def getHashes (id : ID) : Nat × Nat :=
  (ofLittleEndian (id.asSlice.take 8), ofLittleEndian ((id.asSlice.drop 8).take 8))

/-- The bits of an ID: double hashing with wrapping 64-bit arithmetic, masked by the bit count. -/
def positions (bf : BloomFilter) (id : ID) : List Nat :=
  (List.range bf.numHashes).map fun i =>
    ((getHashes id).1 + i * (getHashes id).2) % 2 ^ 64 &&& (bf.bitCount - 1)

/-- `BloomFilter::insert`. -/
def insert (bf : BloomFilter) (id : ID) : BloomFilter :=
  { bf with bits := bf.bits ∪ (bf.positions id).toFinset }

/-- `BloomFilter::contains`. -/
def contains (bf : BloomFilter) (id : ID) : Bool := (bf.positions id).all fun p => p ∈ bf.bits

/-- Insert every ID of a list. -/
def insertAll (bf : BloomFilter) (ids : List ID) : BloomFilter := ids.foldl insert bf

@[simp] theorem positions_insert (bf : BloomFilter) (id id' : ID) :
    (bf.insert id).positions id' = bf.positions id' := rfl

theorem contains_insert_self (bf : BloomFilter) (id : ID) : (bf.insert id).contains id = true := by
  rw [contains, List.all_eq_true]
  intro p hp
  rw [positions_insert] at hp
  simp [insert, hp]

theorem contains_insert {bf : BloomFilter} {id : ID} (id' : ID) (h : bf.contains id = true) :
    (bf.insert id').contains id = true := by
  rw [contains, List.all_eq_true] at h ⊢
  intro p hp
  have hmem := h p hp
  simp only [decide_eq_true_eq] at hmem ⊢
  exact Finset.mem_union_left _ hmem

theorem contains_insertAll_of_contains {bf : BloomFilter} {id : ID} (ids : List ID)
    (h : bf.contains id = true) : (bf.insertAll ids).contains id = true := by
  induction ids generalizing bf with
  | nil => exact h
  | cons id' ids ih => exact ih (contains_insert id' h)

/-- A filter knows every ID that was inserted. -/
theorem contains_insertAll {bf : BloomFilter} {id : ID} {ids : List ID} (h : id ∈ ids) :
    (bf.insertAll ids).contains id = true := by
  induction ids generalizing bf with
  | nil => cases h
  | cons id' ids ih =>
    rcases List.mem_cons.mp h with rfl | htail
    · exact contains_insertAll_of_contains ids (contains_insert_self bf id)
    · exact ih htail

end BloomFilter

/-! ## Index sets -/

/-- A set whose elements are numbered in the order of their insertion. -/
structure IndexSet (α : Type) [DecidableEq α] where
  values : List α
  map : AList (fun _ : α => Nat)
  lookup_iff : ∀ x i, map.lookup x = some i ↔ values[i]? = some x

namespace IndexSet

variable {α : Type} [DecidableEq α]

/-- `IndexSet::new`. -/
def new : IndexSet α := ⟨[], ∅, by simp⟩

/-- `IndexSet::get_value`. -/
def getValue (s : IndexSet α) (i : Nat) : Option α := s.values[i]?

/-- Appending an element that is absent and mapping it to its place keeps vector and map in
agreement. -/
theorem lookup_iff_append (s : IndexSet α) {x : α} (hx : s.map.lookup x = none) (y : α) (i : Nat) :
    (s.map.insert x s.values.length).lookup y = some i ↔ (s.values ++ [x])[i]? = some y := by
  by_cases hy : y = x
  · subst hy
    have hnew : ∀ j : Nat, s.values[j]? ≠ some y := by
      intro j hj
      rw [(s.lookup_iff y j).mpr hj] at hx
      cases hx
    rw [AList.lookup_insert, List.getElem?_append]
    split
    · rename_i hlt
      have hne : s.values.length ≠ i := by omega
      simp [hne, hnew i]
    · rw [List.getElem?_singleton]
      split
      · simp only [Option.some.injEq, iff_true]
        omega
      · simp only [Option.some.injEq, reduceCtorEq, iff_false]
        omega
  · rw [AList.lookup_insert_ne hy, s.lookup_iff, List.getElem?_append]
    split
    · rfl
    · rw [List.getElem?_eq_none (by omega), List.getElem?_singleton]
      split
      · simp [Ne.symm hy]
      · rfl

/-- `IndexSet::insert`: the set and the number of the element. -/
def insert (s : IndexSet α) (x : α) : IndexSet α × Nat :=
  match h : s.map.lookup x with
  | some i => (s, i)
  | none =>
    (⟨s.values ++ [x], s.map.insert x s.values.length, s.lookup_iff_append h⟩, s.values.length)

/-- The number that `insert` returns is the number of the element. -/
theorem getValue_insert (s : IndexSet α) (x : α) :
    (s.insert x).1.getValue (s.insert x).2 = some x := by
  unfold insert
  split
  · rename_i i hi
    exact (s.lookup_iff x i).mp hi
  · simp [getValue]

/-- Insertion keeps the numbers of the elements it finds. -/
theorem getValue_insert_of_some {s : IndexSet α} {i : Nat} {y : α} (x : α)
    (h : s.getValue i = some y) : (s.insert x).1.getValue i = some y := by
  unfold insert
  split
  · exact h
  · unfold getValue at h ⊢
    have hlt : i < s.values.length := (List.getElem?_eq_some_iff.mp h).1
    exact (List.getElem?_append_left hlt).trans h

/-! ### Removals -/

/-- `IndexSet::get_index`. -/
def getIndex (s : IndexSet α) (x : α) : Option Nat := s.map.lookup x

/-- `Vec::swap_remove`: the last element takes the place of the one that is removed. -/
def swapRemove (values : List α) (i : Nat) : List α :=
  match values.getLast? with
  | some last => (values.set i last).dropLast
  | none => values

/-- `IndexSet::remove` on the vector and the map: whether the element was there. The result is `none`
where the code would panic. -/
def removeFrom (values : List α) (map : AList (fun _ : α => Nat)) (x : α) :
    Option (Bool × List α × AList (fun _ : α => Nat)) :=
  match map.lookup x with
  | none => some (false, values, map)
  | some valueIndex =>
    if valueIndex ≠ values.length - 1 then
      let values := swapRemove values valueIndex
      match values[valueIndex]? with
      | none => none
      | some movedItem =>
        -- `get_mut`, and `expect`
        if (map.erase x).lookup movedItem = none then none
        else some (true, values, (map.erase x).insert movedItem valueIndex)
    else some (true, values.dropLast, map.erase x)

omit [DecidableEq α] in
theorem getElem?_swapRemove {values : List α} {i : Nat} (hi : i < values.length - 1) (j : Nat) :
    (swapRemove values i)[j]? =
      if j = i then values[values.length - 1]?
      else if j < values.length - 1 then values[j]? else none := by
  have hne : values ≠ [] := by
    rintro rfl
    exact absurd hi (Nat.not_lt_zero _)
  have hlast : values.getLast? = some (values.getLast hne) := List.getLast?_eq_some_getLast hne
  rw [swapRemove, hlast]
  dsimp only
  rw [List.getElem?_dropLast, List.length_set]
  by_cases hj : j = i
  · subst hj
    rw [if_pos hi, if_pos rfl, List.getElem?_set_self (by omega), List.getLast_eq_getElem,
      List.getElem?_eq_getElem]
  · rw [if_neg hj, List.getElem?_set_ne (Ne.symm hj)]

section Remove

variable {s : IndexSet α} {x : α}

/-- An element has one position. -/
theorem position_unique {i j : Nat} (hi : s.values[i]? = some x) (hj : s.values[j]? = some x) :
    i = j := by
  rw [← s.lookup_iff] at hi hj
  rw [hi] at hj
  exact Option.some.inj hj

theorem nodup_values (s : IndexSet α) : s.values.Nodup := by
  rw [List.nodup_iff_getElem?_ne_getElem?]
  intro i j hij hj heq
  have hx : s.values[j]? = some s.values[j] := List.getElem?_eq_getElem hj
  exact absurd (position_unique (heq.trans hx) hx) (Nat.ne_of_lt hij)

/-- The two ways to remove an element: the last one is popped, and another one is replaced by the last
one, which the map knows. -/
theorem removeFrom_cases {i : Nat} (h : s.getIndex x = some i) :
    (i = s.values.length - 1 ∧
      removeFrom s.values s.map x = some (true, s.values.dropLast, s.map.erase x)) ∨
    (i < s.values.length - 1 ∧ ∃ moved, s.values[s.values.length - 1]? = some moved ∧ moved ≠ x ∧
      removeFrom s.values s.map x =
        some (true, swapRemove s.values i, (s.map.erase x).insert moved i)) := by
  have hx : s.values[i]? = some x := (s.lookup_iff x i).mp h
  have hlt := (List.getElem?_eq_some_iff.mp hx).1
  have hlookup : s.map.lookup x = some i := h
  by_cases hlast : i = s.values.length - 1
  · left
    refine ⟨hlast, ?_⟩
    simp only [removeFrom, hlookup]
    exact if_neg fun hne => hne hlast
  · right
    have hfirst : i < s.values.length - 1 := by omega
    obtain ⟨moved, hmoved⟩ : ∃ moved, s.values[s.values.length - 1]? = some moved :=
      ⟨_, List.getElem?_eq_getElem (by omega)⟩
    have hne : moved ≠ x := by
      rintro rfl
      exact hlast (position_unique hx hmoved)
    refine ⟨hfirst, moved, hmoved, hne, ?_⟩
    have hfound : (s.map.erase x).lookup moved ≠ none := by
      rw [Table.lookup_erase_eq_ite, if_neg hne, (s.lookup_iff _ _).mpr hmoved]
      exact Option.some_ne_none _
    simp only [removeFrom, hlookup]
    rw [if_pos hlast, getElem?_swapRemove hfirst, if_pos rfl, hmoved]
    exact if_neg hfound

/-- The map agrees with the vector when the last element is popped. -/
theorem lookup_iff_pop (hx : s.values[s.values.length - 1]? = some x) (y : α) (j : Nat) :
    (s.map.erase x).lookup y = some j ↔ s.values.dropLast[j]? = some y := by
  rw [Table.lookup_erase_eq_ite, List.getElem?_dropLast]
  by_cases hy : y = x
  · subst hy
    rw [if_pos rfl]
    constructor
    · intro hnone
      cases hnone
    · intro hj
      split at hj
      · rename_i hlt
        exact absurd (position_unique hj hx) (Nat.ne_of_lt hlt)
      · cases hj
  · rw [if_neg hy, s.lookup_iff]
    constructor
    · intro hj
      have hlen := (List.getElem?_eq_some_iff.mp hj).1
      have hne : j ≠ s.values.length - 1 := by
        rintro rfl
        rw [hx] at hj
        exact hy (Option.some.inj hj).symm
      rw [if_pos (by omega)]
      exact hj
    · intro hj
      split at hj
      · exact hj
      · cases hj

/-- The map agrees with the vector when the last element moves to the place of the removed one. -/
theorem lookup_iff_swap {i : Nat} {moved : α} (hx : s.values[i]? = some x)
    (hi : i < s.values.length - 1) (hmoved : s.values[s.values.length - 1]? = some moved)
    (hne : moved ≠ x) (y : α) (j : Nat) :
    ((s.map.erase x).insert moved i).lookup y = some j ↔ (swapRemove s.values i)[j]? = some y := by
  rw [Table.lookup_insert_eq_ite, Table.lookup_erase_eq_ite, getElem?_swapRemove hi]
  by_cases hj : j = i
  · -- the place of the removed element
    subst hj
    rw [if_pos rfl, hmoved]
    by_cases hy : y = moved
    · simp [hy]
    · rw [if_neg hy]
      have hother : (if y = x then none else s.map.lookup y) ≠ some j := by
        split
        · exact fun h => by cases h
        · rename_i hyx
          rw [ne_eq, s.lookup_iff, hx]
          exact fun h => hyx (Option.some.inj h).symm
      simp [hother, Ne.symm hy]
  · rw [if_neg hj]
    by_cases hy : y = moved
    · subst hy
      rw [if_pos rfl]
      constructor
      · intro h
        exact absurd (Option.some.inj h).symm hj
      · intro h
        split at h
        · rename_i hlt
          exact absurd (position_unique h hmoved) (Nat.ne_of_lt hlt)
        · cases h
    · rw [if_neg hy]
      by_cases hyx : y = x
      · subst hyx
        rw [if_pos rfl]
        constructor
        · intro h
          cases h
        · intro h
          split at h
          · exact absurd (position_unique h hx) hj
          · cases h
      · rw [if_neg hyx, s.lookup_iff]
        constructor
        · intro h
          have hlen := (List.getElem?_eq_some_iff.mp h).1
          have hlast : j ≠ s.values.length - 1 := by
            rintro rfl
            rw [hmoved] at h
            exact hy (Option.some.inj h).symm
          rw [if_pos (by omega)]
          exact h
        · intro h
          split at h
          · exact h
          · cases h

/-- **A removal keeps vector and map in agreement**, and it does not panic. -/
theorem removeFrom_spec (s : IndexSet α) (x : α) : ∃ found values map,
    removeFrom s.values s.map x = some (found, values, map) ∧
      ∀ y j, map.lookup y = some j ↔ values[j]? = some y := by
  cases hindex : s.getIndex x with
  | none =>
    have hlookup : s.map.lookup x = none := hindex
    exact ⟨false, s.values, s.map, by simp only [removeFrom, hlookup], s.lookup_iff⟩
  | some i =>
    have hx : s.values[i]? = some x := (s.lookup_iff x i).mp hindex
    rcases removeFrom_cases hindex with ⟨rfl, heq⟩ | ⟨hi, moved, hmoved, hne, heq⟩
    · exact ⟨_, _, _, heq, lookup_iff_pop hx⟩
    · exact ⟨_, _, _, heq, lookup_iff_swap hx hi hmoved hne⟩

end Remove

/-- `IndexSet::remove`: the set, and whether the element was there. -/
def remove (s : IndexSet α) (x : α) : IndexSet α × Bool :=
  match h : removeFrom s.values s.map x with
  | some (found, values, map) =>
    (⟨values, map, by
      obtain ⟨_, _, _, heq, hagree⟩ := removeFrom_spec s x
      rw [h] at heq
      cases heq
      exact hagree⟩, found)
  -- never (`removeFrom_spec`)
  | none => (s, false)

section Removed

variable {s : IndexSet α} {x y : α}

theorem remove_of_eq {found : Bool} {values : List α} {map : AList (fun _ : α => Nat)}
    (h : removeFrom s.values s.map x = some (found, values, map)) :
    (s.remove x).1.values = values ∧ (s.remove x).1.map = map ∧ (s.remove x).2 = found := by
  unfold remove
  split
  · rename_i heq
    rw [h] at heq
    cases heq
    exact ⟨rfl, rfl, rfl⟩
  · rename_i heq
    rw [h] at heq
    cases heq

theorem mem_values_iff : y ∈ s.values ↔ s.getIndex y ≠ none := by
  rw [List.mem_iff_getElem?, Option.ne_none_iff_exists']
  exact exists_congr fun i => (s.lookup_iff y i).symm

/-- **What a removal does**: the element goes, the others stay, and at most one of them moves. -/
theorem remove_spec (s : IndexSet α) (x : α) :
    ((s.remove x).2 = true ↔ x ∈ s.values) ∧
      (∀ y, y ∈ (s.remove x).1.values ↔ y ∈ s.values ∧ y ≠ x) ∧
      ∃ z, ∀ y, y ≠ x → y ≠ z → (s.remove x).1.getIndex y = s.getIndex y := by
  simp only [mem_values_iff]
  cases hindex : s.getIndex x with
  | none =>
    have hlookup : s.map.lookup x = none := hindex
    have heq : removeFrom s.values s.map x = some (false, s.values, s.map) := by
      simp only [removeFrom, hlookup]
    obtain ⟨-, hmap, hfound⟩ := remove_of_eq heq
    have hsame (y : α) : (s.remove x).1.getIndex y = s.getIndex y := congrArg (·.lookup y) hmap
    refine ⟨by simp [hfound], ?_, x, fun y _ _ => hsame y⟩
    intro y
    rw [hsame]
    refine ⟨fun hy => ⟨hy, ?_⟩, And.left⟩
    rintro rfl
    exact hy hindex
  | some i =>
    rcases removeFrom_cases hindex with ⟨-, heq⟩ | ⟨-, moved, hmoved, hne, heq⟩
    · obtain ⟨-, hmap, hfound⟩ := remove_of_eq heq
      have hsame (y : α) : (s.remove x).1.getIndex y = if y = x then none else s.getIndex y := by
        rw [getIndex, hmap, Table.lookup_erase_eq_ite]
        rfl
      refine ⟨by simp [hfound], ?_, x, fun y hy _ => (hsame y).trans (if_neg hy)⟩
      intro y
      rw [hsame]
      by_cases hy : y = x
      · simp [hy]
      · simp [hy]
    · obtain ⟨-, hmap, hfound⟩ := remove_of_eq heq
      have hsame (y : α) : (s.remove x).1.getIndex y =
          if y = moved then some i else if y = x then none else s.getIndex y := by
        rw [getIndex, hmap, Table.lookup_insert_eq_ite, Table.lookup_erase_eq_ite]
        rfl
      refine ⟨by simp [hfound], ?_, moved, fun y hy hz => ?_⟩
      · intro y
        rw [hsame]
        by_cases hz : y = moved
        · have hold : s.getIndex moved = some (s.values.length - 1) := (s.lookup_iff _ _).mpr hmoved
          simp [hz, hne, hold]
        · by_cases hy : y = x
          · simp [hy, Ne.symm hne]
          · simp [hz, hy]
      · rw [hsame, if_neg hz, if_neg hy]

end Removed

/-! ### Sequences of operations -/

/-- An operation on an index set. -/
inductive Op (α : Type) where
  | insert (x : α)
  | remove (x : α)

/-- The set after an operation. -/
def Op.apply (s : IndexSet α) : Op α → IndexSet α
  | .insert x => (s.insert x).1
  | .remove x => (s.remove x).1

/-- The set after a sequence of operations. -/
def ofOps (ops : List (Op α)) : IndexSet α := ops.foldl Op.apply new

/-- What an operation does to a set of elements. -/
def Op.onMembers (members : Finset α) : Op α → Finset α
  | .insert x => Insert.insert x members
  | .remove x => members.erase x

section Ops

variable {s : IndexSet α} {x y : α}

theorem mem_insert : y ∈ (s.insert x).1.values ↔ y = x ∨ y ∈ s.values := by
  unfold insert
  split
  · rename_i i hi
    have hx : x ∈ s.values := List.mem_of_getElem? ((s.lookup_iff x i).mp hi)
    constructor
    · exact Or.inr
    · rintro (rfl | hy)
      · exact hx
      · exact hy
  · rw [List.mem_append, List.mem_singleton]
    exact or_comm

/-- The set has the elements that the operations leave. -/
theorem mem_ofOps (ops : List (Op α)) (x : α) :
    x ∈ (ofOps ops).values ↔ x ∈ ops.foldl Op.onMembers ∅ := by
  induction ops using List.reverseRecOn generalizing x with
  | nil => simp [ofOps, new]
  | append_singleton ops op ih =>
    have hlast : ofOps (ops ++ [op]) = Op.apply (ofOps ops) op := List.foldl_concat _ _ _ _
    rw [hlast, List.foldl_concat]
    cases op with
    | insert y => simp only [Op.apply, Op.onMembers, mem_insert, ih, Finset.mem_insert]
    | remove y =>
      simp only [Op.apply, Op.onMembers, (remove_spec (ofOps ops) y).2.1, ih, Finset.mem_erase]
      exact and_comm

/-- Insertions keep the numbers of all elements. -/
theorem getValue_insertAll {i : Nat} (xs : List α) (h : s.getValue i = some y) :
    (xs.foldl (fun s x => (s.insert x).1) s).getValue i = some y := by
  induction xs generalizing s with
  | nil => exact h
  | cons x xs ih => exact ih (getValue_insert_of_some x h)

end Ops

/-- **The numbers stay valid.** After any insertions and removals the vector has each element of the
set once, and the map sends just these elements to their positions. An insertion returns the position
of its element; a removal does not panic and moves at most one other element; and as long as elements
are only inserted, every number keeps its element. -/
theorem ofOps_valid (ops : List (Op α)) :
    (ofOps ops).values.Nodup ∧
    (∀ x, x ∈ (ofOps ops).values ↔ x ∈ ops.foldl Op.onMembers ∅) ∧
    (∀ x i, (ofOps ops).getIndex x = some i ↔ (ofOps ops).getValue i = some x) ∧
    (∀ x, ((ofOps ops).insert x).1.getIndex x = some ((ofOps ops).insert x).2) ∧
    (∀ x, removeFrom (ofOps ops).values (ofOps ops).map x ≠ none ∧
      ∃ z, ∀ y, y ≠ x → y ≠ z → ((ofOps ops).remove x).1.getIndex y = (ofOps ops).getIndex y) ∧
    ∀ (later : List α) (i : Nat) (x : α), (ofOps ops).getValue i = some x →
      (later.foldl (fun s x => (s.insert x).1) (ofOps ops)).getValue i = some x := by
  refine ⟨nodup_values _, mem_ofOps ops, (ofOps ops).lookup_iff, ?_, ?_, ?_⟩
  · intro x
    exact (((ofOps ops).insert x).1.lookup_iff x _).mpr (getValue_insert (ofOps ops) x)
  · intro x
    obtain ⟨_, _, _, heq, -⟩ := removeFrom_spec (ofOps ops) x
    exact ⟨by rw [heq]; exact Option.some_ne_none _, (remove_spec (ofOps ops) x).2.2⟩
  · intro later i x h
    exact getValue_insertAll later h

end IndexSet

end Mapache
