import Mathlib.Data.List.AList
import Mathlib.Data.List.Sort

/-!
# Finite maps and sorting by a key

Hash maps are association lists without duplicate keys; `Table.toList` lists the bindings of one in
some order, and `Table.mem_toList` says which they are. `sortByKey` is the stable sort by a key.
-/

set_option autoImplicit false

namespace Mapache.Lib

universe u v

/-- A finite map. -/
abbrev Table (κ : Type u) (α : Type v) := AList (fun _ : κ => α)

namespace Table

variable {κ : Type u} {α : Type v} [DecidableEq κ]

/-- The bindings of a map, in the order an iteration happens to visit them. -/
def toList (m : Table κ α) : List (κ × α) := m.entries.map fun e => (e.1, e.2)

theorem mem_toList {m : Table κ α} {k : κ} {a : α} : (k, a) ∈ toList m ↔ m.lookup k = some a := by
  have hentry : m.lookup k = some a ↔ (⟨k, a⟩ : Sigma fun _ : κ => α) ∈ m.entries :=
    AList.mem_lookup_iff
  rw [hentry, toList, List.mem_map]
  constructor
  · rintro ⟨⟨k', a'⟩, hmem, heq⟩
    cases heq
    exact hmem
  · intro hmem
    exact ⟨⟨k, a⟩, hmem, rfl⟩

/-- The bindings with a function of their values. -/
theorem mem_map_toList {β : Type*} {f : α → β} {m : Table κ α} {k : κ} {b : β} :
    (k, b) ∈ (toList m).map (fun e => (e.1, f e.2)) ↔ ∃ a, m.lookup k = some a ∧ f a = b := by
  rw [List.mem_map]
  constructor
  · rintro ⟨⟨k', a⟩, hmem, heq⟩
    cases heq
    exact ⟨a, mem_toList.mp hmem, rfl⟩
  · rintro ⟨a, hlookup, rfl⟩
    exact ⟨(k, a), mem_toList.mpr hlookup, rfl⟩

theorem lookup_insert_eq_ite (m : Table κ α) (k k' : κ) (a : α) :
    (m.insert k a).lookup k' = if k' = k then some a else m.lookup k' := by
  split
  · rename_i heq
    rw [heq, AList.lookup_insert]
  · rename_i hne
    exact AList.lookup_insert_ne hne

theorem lookup_erase_eq_ite (m : Table κ α) (k k' : κ) :
    (m.erase k).lookup k' = if k' = k then none else m.lookup k' := by
  split
  · rename_i heq
    rw [heq, AList.lookup_erase]
  · rename_i hne
    exact AList.lookup_erase_ne hne

theorem erase_eq_self {m : Table κ α} {k : κ} (h : m.lookup k = none) : m.erase k = m := by
  apply AList.ext
  exact List.kerase_of_notMem_keys (AList.lookup_eq_none.mp h)

omit [DecidableEq κ] in
theorem nodup_toList (m : Table κ α) : (toList m).Nodup := by
  have hkeys : ((toList m).map Prod.fst).Nodup := by
    rw [toList, List.map_map]
    exact m.nodupKeys
  exact hkeys.of_map

/-- A binding that is there, before the others. -/
theorem perm_toList_erase {m : Table κ α} {k : κ} {a : α} (h : m.lookup k = some a) :
    (toList m).Perm ((k, a) :: toList (m.erase k)) := by
  have hnew : (k, a) ∉ toList (m.erase k) := by
    rw [mem_toList, AList.lookup_erase]
    exact Option.some_ne_none a |>.symm
  apply (List.perm_ext_iff_of_nodup (nodup_toList m) ((nodup_toList _).cons hnew)).mpr
  rintro ⟨k', a'⟩
  rw [List.mem_cons, mem_toList, mem_toList, lookup_erase_eq_ite]
  by_cases hk : k' = k
  · subst hk
    simp [h, eq_comm]
  · simp [hk]

/-- A binding that is put in, before the others. -/
theorem perm_toList_insert (m : Table κ α) (k : κ) (a : α) :
    (toList (m.insert k a)).Perm ((k, a) :: toList (m.erase k)) := by
  have hinsert : (m.insert k a).lookup k = some a := AList.lookup_insert m
  refine (perm_toList_erase hinsert).trans (List.Perm.cons _ ?_)
  apply (List.perm_ext_iff_of_nodup (nodup_toList _) (nodup_toList _)).mpr
  rintro ⟨k', a'⟩
  rw [mem_toList, mem_toList, lookup_erase_eq_ite, lookup_erase_eq_ite, lookup_insert_eq_ite]
  by_cases hk : k' = k
  · simp [hk]
  · simp [hk]

/-- A key that was erased is gone, and the others are as before. -/
theorem lookup_foldl_erase (ks : List κ) (m : Table κ α) (k : κ) :
    (ks.foldl (fun m k' => m.erase k') m).lookup k = if k ∈ ks then none else m.lookup k := by
  induction ks generalizing m with
  | nil => simp
  | cons k' ks ih =>
    rw [List.foldl_cons, ih, lookup_erase_eq_ite]
    by_cases hk' : k = k' <;> by_cases hk : k ∈ ks <;> simp [hk', hk]

section Insert

variable {β : Type*} {key : β → κ} {value : β → α} {l : List β}

/-- Bindings for other keys do not matter. -/
theorem lookup_foldl_insert_of_not_mem (m : Table κ α) {k : κ} (h : k ∉ l.map key) :
    (l.foldl (fun m x => m.insert (key x) (value x)) m).lookup k = m.lookup k := by
  induction l generalizing m with
  | nil => rfl
  | cons x l ih =>
    rw [List.map_cons, List.mem_cons, not_or] at h
    rw [List.foldl_cons, ih _ h.2, lookup_insert_eq_ite, if_neg h.1]

/-- Bindings for distinct keys are all there. -/
theorem lookup_foldl_insert_of_mem (m : Table κ α) (hnodup : (l.map key).Nodup) {x : β}
    (hx : x ∈ l) :
    (l.foldl (fun m x => m.insert (key x) (value x)) m).lookup (key x) = some (value x) := by
  induction l generalizing m with
  | nil => cases hx
  | cons y l ih =>
    rw [List.map_cons, List.nodup_cons] at hnodup
    rw [List.foldl_cons]
    rcases List.mem_cons.mp hx with rfl | hmem
    · rw [lookup_foldl_insert_of_not_mem _ hnodup.1, lookup_insert_eq_ite, if_pos rfl]
    · exact ih _ hnodup.2 hmem

/-- A binding is new or was there before. -/
theorem of_lookup_foldl_insert (m : Table κ α) (hnodup : (l.map key).Nodup) {k : κ} {a : α}
    (h : (l.foldl (fun m x => m.insert (key x) (value x)) m).lookup k = some a) :
    (∃ x ∈ l, key x = k ∧ value x = a) ∨ (k ∉ l.map key ∧ m.lookup k = some a) := by
  by_cases hk : k ∈ l.map key
  · obtain ⟨x, hx, rfl⟩ := List.mem_map.mp hk
    rw [lookup_foldl_insert_of_mem m hnodup hx] at h
    exact Or.inl ⟨x, hx, rfl, Option.some.inj h⟩
  · rw [lookup_foldl_insert_of_not_mem m hk] at h
    exact Or.inr ⟨hk, h⟩

end Insert

end Table

section Sorting

variable {α : Type u} {κ : Type v} [LinearOrder κ]

/-- The stable sort of a list by a key. -/
def sortByKey (key : α → κ) (l : List α) : List α := l.insertionSort fun a b => key a ≤ key b

@[simp] theorem mem_sortByKey {key : α → κ} {l : List α} {a : α} : a ∈ sortByKey key l ↔ a ∈ l :=
  List.mem_insertionSort _

theorem perm_sortByKey (key : α → κ) (l : List α) : (sortByKey key l).Perm l :=
  List.perm_insertionSort _ l

theorem pairwise_sortByKey (key : α → κ) (l : List α) :
    (sortByKey key l).Pairwise fun a b => key a ≤ key b := by
  have : Std.Total fun a b : α => key a ≤ key b := ⟨fun a b => le_total (key a) (key b)⟩
  have : IsTrans α fun a b : α => key a ≤ key b := ⟨fun _ _ _ => le_trans⟩
  exact List.pairwise_insertionSort _ l

end Sorting

end Mapache.Lib
