import Mapache.Lib.Table

/-!
# A cache that evicts the least recently used entry

`Lru` of `utils/collections/lru.rs`. Every entry has the number of its last use, and `orderMap`
leads from these numbers back to the keys; the smallest number is evicted.
-/

set_option autoImplicit false

namespace Mapache

open Lib

/-- `Lru`. -/
structure Lru (κ α : Type) where
  entries : Table κ (α × Nat)
  orderMap : Table Nat κ
  nextTimestamp : Nat

namespace Lru

variable {κ α : Type} [DecidableEq κ]

/-- `Lru::new`. -/
def new : Lru κ α := ⟨∅, ∅, 0⟩

/-- `Lru::record_hit`: the value of the key, which is marked as used. -/
def recordHit (lru : Lru κ α) (key : κ) : Option (α × Lru κ α) :=
  (lru.entries.lookup key).map fun (value, oldTs) =>
    (value,
      { entries := lru.entries.insert key (value, lru.nextTimestamp)
        orderMap := (lru.orderMap.erase oldTs).insert lru.nextTimestamp key
        nextTimestamp := lru.nextTimestamp + 1 })

/-- `Lru::evict_one`: the key that was not used for longest goes, with its value. -/
def evictOne (lru : Lru κ α) : Option (κ × α) × Lru κ α :=
  match lru.orderMap.keys.min? with
  | none => (none, lru)
  | some ts =>
    match lru.orderMap.lookup ts with
    | none => (none, lru)
    | some key =>
      let lru := { lru with orderMap := lru.orderMap.erase ts }
      match lru.entries.lookup key with
      | none => (none, lru)
      | some (value, _) => (some (key, value), { lru with entries := lru.entries.erase key })

/-- `Lru::insert`. -/
def insert (lru : Lru κ α) (key : κ) (value : α) : Lru κ α :=
  let orderMap :=
    match lru.entries.lookup key with
    | some (_, oldTs) => lru.orderMap.erase oldTs
    | none => lru.orderMap
  { entries := lru.entries.insert key (value, lru.nextTimestamp)
    orderMap := orderMap.insert lru.nextTimestamp key
    nextTimestamp := lru.nextTimestamp + 1 }

/-- `Lru::len`. -/
def len (lru : Lru κ α) : Nat := lru.entries.keys.length

/-! ## The values of a cache -/

/-- Every cached value belongs to its key. -/
def All (P : κ → α → Prop) (lru : Lru κ α) : Prop :=
  ∀ key value ts, lru.entries.lookup key = some (value, ts) → P key value

/-- Every cached value is the one that belongs to its key. -/
def Holds (content : κ → α) (lru : Lru κ α) : Prop :=
  ∀ key value ts, lru.entries.lookup key = some (value, ts) → value = content key

section Values

variable {P : κ → α → Prop} {content : κ → α} {lru lru' : Lru κ α} {key : κ} {value : α}

theorem all_new : (new : Lru κ α).All P := fun _ _ _ h => by cases h

theorem holds_new : (new : Lru κ α).Holds content := fun _ _ _ h => by cases h

theorem All.entries_insert (h : lru.All P) (hvalue : P key value) {ts ts' : Nat} {key' : κ}
    {value' : α} (hl : (lru.entries.insert key (value, ts)).lookup key' = some (value', ts')) :
    P key' value' := by
  rw [Table.lookup_insert_eq_ite] at hl
  split at hl
  · rename_i heq
    cases hl
    rw [heq]
    exact hvalue
  · exact h key' value' ts' hl

/-- A hit gives the value of the key. -/
theorem All.recordHit (h : lru.All P) (hhit : lru.recordHit key = some (value, lru')) :
    P key value ∧ lru'.All P := by
  obtain ⟨⟨_, oldTs⟩, hlookup, heq⟩ := Option.map_eq_some_iff.mp hhit
  cases heq
  have hvalue := h key _ oldTs hlookup
  exact ⟨hvalue, fun _ _ _ hl => h.entries_insert hvalue hl⟩

theorem All.insert (h : lru.All P) (hvalue : P key value) : (lru.insert key value).All P :=
  fun _ _ _ hl => h.entries_insert hvalue hl

theorem All.evictOne (h : lru.All P) : lru.evictOne.2.All P := by
  intro key' value' ts' hl
  unfold Lru.evictOne at hl
  split at hl
  · exact h _ _ _ hl
  · split at hl
    · exact h _ _ _ hl
    · dsimp only at hl
      split at hl
      · exact h _ _ _ hl
      · dsimp only at hl
        rw [Table.lookup_erase_eq_ite] at hl
        split at hl
        · cases hl
        · exact h _ _ _ hl

theorem Holds.recordHit (h : lru.Holds content) (hhit : lru.recordHit key = some (value, lru')) :
    value = content key ∧ lru'.Holds content :=
  All.recordHit (P := fun key value => value = content key) h hhit

theorem Holds.insert (h : lru.Holds content) (hvalue : value = content key) :
    (lru.insert key value).Holds content :=
  All.insert (P := fun key value => value = content key) h hvalue

theorem Holds.evictOne (h : lru.Holds content) : lru.evictOne.2.Holds content :=
  All.evictOne (P := fun key value => value = content key) h

end Values

/-! ## The order of the uses -/

/-- The last use of the key is the one at this place. -/
def LastUse (uses : List κ) (key : κ) (i : Nat) : Prop :=
  uses[i]? = some key ∧ ∀ j, i < j → uses[j]? ≠ some key

omit [DecidableEq κ] in
theorem lastUse_append_self (uses : List κ) (key : κ) :
    LastUse (uses ++ [key]) key uses.length := by
  refine ⟨List.getElem?_concat_length, fun j hj => ?_⟩
  rw [List.getElem?_eq_none (by rw [List.length_append, List.length_singleton]; omega)]
  exact nofun

omit [DecidableEq κ] in
/-- The use of another key changes nothing. -/
theorem LastUse.append {uses : List κ} {key key' : κ} {i : Nat} (h : LastUse uses key i)
    (hne : key' ≠ key) : LastUse (uses ++ [key']) key i := by
  have hi : i < uses.length := (List.getElem?_eq_some_iff.mp h.1).1
  refine ⟨by rw [List.getElem?_append_left hi]; exact h.1, fun j hj => ?_⟩
  rcases lt_trichotomy j uses.length with hlt | rfl | hgt
  · rw [List.getElem?_append_left hlt]
    exact h.2 j hj
  · rw [List.getElem?_concat_length]
    exact fun heq => hne (Option.some.inj heq)
  · rw [List.getElem?_eq_none (by rw [List.length_append, List.length_singleton]; omega)]
    exact nofun

/-- After these uses, insertions and hits, the two maps are inverse to each other and every entry
has the place of its last use. -/
structure Ordered (uses : List κ) (lru : Lru κ α) : Prop where
  inverse : ∀ key ts, (∃ value, lru.entries.lookup key = some (value, ts)) ↔
    lru.orderMap.lookup ts = some key
  next : lru.nextTimestamp = uses.length
  lastUse : ∀ key value ts, lru.entries.lookup key = some (value, ts) → LastUse uses key ts

section Order

variable {uses : List κ} {lru lru' : Lru κ α} {key : κ} {value : α}

theorem ordered_new : (new : Lru κ α).Ordered [] where
  inverse _ _ := by
    constructor
    · rintro ⟨_, h⟩
      cases h
    · intro h
      cases h
  next := rfl
  lastUse _ _ _ h := by cases h

/-- No key has the place of the next use. -/
theorem Ordered.lookup_next (h : lru.Ordered uses) (key : κ) :
    lru.orderMap.lookup lru.nextTimestamp ≠ some key := by
  intro hlookup
  obtain ⟨value, hentry⟩ := (h.inverse _ _).mpr hlookup
  have hlt := (List.getElem?_eq_some_iff.mp (h.lastUse _ _ _ hentry).1).1
  rw [h.next] at hlt
  exact lt_irrefl _ hlt

/-- The place of a key is not the place of another one. -/
theorem Ordered.lookup_erase (h : lru.Ordered uses) {oldTs : Nat}
    (hentry : lru.entries.lookup key = some (value, oldTs)) (ts : Nat) (key' : κ) :
    (lru.orderMap.erase oldTs).lookup ts = some key' ↔
      key' ≠ key ∧ lru.orderMap.lookup ts = some key' := by
  have hold : lru.orderMap.lookup oldTs = some key := (h.inverse _ _).mp ⟨value, hentry⟩
  rw [Table.lookup_erase_eq_ite]
  split
  · rename_i hts
    subst hts
    rw [hold]
    constructor
    · exact nofun
    · rintro ⟨hne, heq⟩
      exact absurd (Option.some.inj heq).symm hne
  · rename_i hts
    refine ⟨fun hl => ⟨?_, hl⟩, And.right⟩
    rintro rfl
    obtain ⟨value', hentry'⟩ := (h.inverse _ _).mpr hl
    rw [hentry] at hentry'
    cases hentry'
    exact hts rfl

/-- **One use** of a key: the entry gets the next place, and the place it had before is free. -/
theorem Ordered.use {orderMap : Table Nat κ} (h : lru.Ordered uses)
    (horder : ∀ ts key', orderMap.lookup ts = some key' ↔
      key' ≠ key ∧ lru.orderMap.lookup ts = some key') :
    Ordered (uses ++ [key])
      { entries := lru.entries.insert key (value, lru.nextTimestamp)
        orderMap := orderMap.insert lru.nextTimestamp key
        nextTimestamp := lru.nextTimestamp + 1 } where
  inverse := by
    intro key' ts
    dsimp only
    rw [Table.lookup_insert_eq_ite, Table.lookup_insert_eq_ite]
    by_cases hkey : key' = key
    · subst hkey
      by_cases hts : ts = lru.nextTimestamp
      · simp [hts]
      · simp [hts, Ne.symm hts, horder]
    · -- the place of the next use is not the place of another key
      have hnext : ¬∃ value, lru.entries.lookup key' = some (value, lru.nextTimestamp) :=
        fun hentry => h.lookup_next key' ((h.inverse _ _).mp hentry)
      rw [if_neg hkey]
      by_cases hts : ts = lru.nextTimestamp
      · simpa [hts, Ne.symm hkey] using hnext
      · rw [if_neg hts, h.inverse, horder, and_iff_right hkey]
  next := by rw [h.next, List.length_append, List.length_singleton]
  lastUse := by
    intro key' value' ts hl
    dsimp only at hl
    rw [Table.lookup_insert_eq_ite] at hl
    split at hl
    · rename_i heq
      cases hl
      rw [heq, h.next]
      exact lastUse_append_self uses key
    · rename_i hne
      exact (h.lastUse _ _ _ hl).append (Ne.symm hne)

/-- A hit is a use of the key. -/
theorem Ordered.recordHit (h : lru.Ordered uses) (hhit : lru.recordHit key = some (value, lru')) :
    lru'.Ordered (uses ++ [key]) := by
  obtain ⟨⟨_, oldTs⟩, hlookup, heq⟩ := Option.map_eq_some_iff.mp hhit
  cases heq
  exact h.use (h.lookup_erase hlookup)

/-- An insertion is a use of the key, whether or not the key was there. -/
theorem Ordered.insert (h : lru.Ordered uses) : (lru.insert key value).Ordered (uses ++ [key]) := by
  refine h.use fun ts key' => ?_
  cases hlookup : lru.entries.lookup key with
  | some entry => exact h.lookup_erase hlookup ts key'
  | none =>
    refine ⟨fun hl => ⟨?_, hl⟩, And.right⟩
    rintro rfl
    obtain ⟨value', hentry⟩ := (h.inverse _ _).mpr hl
    rw [hlookup] at hentry
    cases hentry

/-- `evictOne` takes the entry whose last use is the oldest, and nothing only when nothing is
cached. -/
def EvictsOldest (uses : List κ) (lru : Lru κ α) : Prop :=
  match lru.evictOne with
  | (none, lru') => lru' = lru ∧ lru.entries.keys = []
  | (some (key, value), lru') => ∃ i, lru.entries.lookup key = some (value, i) ∧
      LastUse uses key i ∧ lru'.entries = lru.entries.erase key ∧
      ∀ key' value' j, lru.entries.lookup key' = some (value', j) → LastUse uses key' j ∧ i ≤ j

/-- **An eviction** takes the oldest entry and keeps the order of the others. -/
theorem Ordered.evictOne (h : lru.Ordered uses) :
    lru.EvictsOldest uses ∧ lru.evictOne.2.Ordered uses := by
  cases hmin : lru.orderMap.keys.min? with
  | none =>
    have hevict : lru.evictOne = (none, lru) := by simp only [Lru.evictOne, hmin]
    rw [EvictsOldest, hevict]
    have hkeys : lru.orderMap.keys = [] := List.min?_eq_none_iff.mp hmin
    refine ⟨⟨rfl, List.eq_nil_iff_forall_not_mem.mpr fun key hkey => ?_⟩, h⟩
    obtain ⟨⟨value, ts⟩, hlookup⟩ := Option.isSome_iff_exists.mp (AList.lookup_isSome.mpr hkey)
    have horder := (h.inverse _ _).mp ⟨value, hlookup⟩
    have hmem : ts ∈ lru.orderMap := AList.lookup_isSome.mp (horder ▸ rfl)
    rw [AList.mem_keys, hkeys] at hmem
    cases hmem
  | some ts =>
    -- the smallest place has a key, and the key has an entry with this place
    obtain ⟨hts, hleast⟩ := List.min?_eq_some_iff.mp hmin
    obtain ⟨key, horder⟩ := Option.isSome_iff_exists.mp (AList.lookup_isSome.mpr hts)
    obtain ⟨value, hentry⟩ := (h.inverse _ _).mpr horder
    have hevict : lru.evictOne = (some (key, value),
        { lru with entries := lru.entries.erase key, orderMap := lru.orderMap.erase ts }) := by
      simp only [Lru.evictOne, hmin, horder, hentry]
    rw [EvictsOldest, hevict]
    refine ⟨⟨ts, hentry, h.lastUse _ _ _ hentry, rfl, fun key' value' ts' hl => ?_⟩, ?_, h.next,
      ?_⟩
    · have hts' := (h.inverse _ _).mp ⟨value', hl⟩
      exact ⟨h.lastUse _ _ _ hl, hleast _ (AList.lookup_isSome.mp (hts' ▸ rfl))⟩
    · intro key' ts'
      rw [h.lookup_erase hentry, ← h.inverse, Table.lookup_erase_eq_ite]
      by_cases hkey : key' = key
      · simp [hkey]
      · simp [hkey]
    · intro key' value' ts' hl
      dsimp only at hl
      rw [Table.lookup_erase_eq_ite] at hl
      split at hl
      · cases hl
      · exact h.lastUse _ _ _ hl

/-- What is left in the order when an entry goes. -/
theorem length_keys_evictOne {entry : κ × α} (h : lru.evictOne = (some entry, lru')) :
    lru.orderMap.keys.length = lru'.orderMap.keys.length + 1 := by
  unfold Lru.evictOne at h
  split at h
  · cases h
  · rename_i ts hmin
    have hts : ts ∈ lru.orderMap.keys := (List.min?_eq_some_iff.mp hmin).1
    split at h
    · cases h
    · dsimp only at h
      split at h
      · cases h
      · cases h
        dsimp only
        rw [AList.keys_erase, List.length_erase_of_mem hts]
        have hpos := List.length_pos_of_mem hts
        omega

end Order

/-! ## The cached values -/

/-- The cached values. -/
def values (lru : Lru κ α) : List α := (Table.toList lru.entries).map fun e => e.2.1

section Values

variable {uses : List κ} {lru lru' : Lru κ α} {key : κ} {value : α}

omit [DecidableEq κ] in
theorem length_values (lru : Lru κ α) : lru.values.length = lru.len := by
  simp [values, Table.toList, len, AList.keys, List.keys]

theorem perm_values_insert (h : lru.recordHit key = none) :
    (lru.insert key value).values.Perm (value :: lru.values) := by
  have hnone : lru.entries.lookup key = none := Option.map_eq_none_iff.mp h
  have hperm := Table.perm_toList_insert lru.entries key (value, lru.nextTimestamp)
  rw [Table.erase_eq_self hnone] at hperm
  exact hperm.map fun e => e.2.1

/-- A hit changes no value. -/
theorem perm_values_recordHit (h : lru.recordHit key = some (value, lru')) :
    lru'.values.Perm lru.values := by
  obtain ⟨⟨_, oldTs⟩, hlookup, heq⟩ := Option.map_eq_some_iff.mp h
  cases heq
  have hnew := Table.perm_toList_insert lru.entries key (value, lru.nextTimestamp)
  have hold := Table.perm_toList_erase hlookup
  exact (hnew.map fun e => e.2.1).trans (hold.map fun e => e.2.1).symm

theorem perm_values_evictOne (h : lru.Ordered uses)
    (hevict : lru.evictOne = (some (key, value), lru')) :
    lru.values.Perm (value :: lru'.values) := by
  have holdest := h.evictOne.1
  rw [EvictsOldest, hevict] at holdest
  obtain ⟨ts, hentry, -, hentries, -⟩ := holdest
  have hperm := (Table.perm_toList_erase hentry).map fun e => e.2.1
  rw [← hentries] at hperm
  exact hperm

theorem values_of_evictOne_none (h : lru.Ordered uses) (hevict : lru.evictOne = (none, lru')) :
    lru' = lru ∧ lru.len = 0 := by
  have holdest := h.evictOne.1
  rw [EvictsOldest, hevict] at holdest
  exact ⟨holdest.1, by rw [len, holdest.2, List.length_nil]⟩

/-- A key that is not cached does not come back with an eviction. -/
theorem recordHit_evictOne (h : lru.recordHit key = none) :
    lru.evictOne.2.recordHit key = none := by
  have hiff : ∀ lru : Lru κ α, lru.recordHit key = none ↔ lru.All fun key' _ => key' ≠ key := by
    intro lru
    rw [recordHit, Option.map_eq_none_iff, Option.eq_none_iff_forall_ne_some]
    constructor
    · rintro hnone key' value' ts hl rfl
      exact hnone _ hl
    · rintro hall ⟨value', ts⟩ hl
      exact hall key value' ts hl rfl
  rw [hiff] at h ⊢
  exact h.evictOne

end Values

end Lru

end Mapache
