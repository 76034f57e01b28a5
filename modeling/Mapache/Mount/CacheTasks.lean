import Mapache.Lib.CachedLoad
import Mapache.Mount.Cache

/-!
# The caches of a mount, used by many tasks

A file system serves many requests at once, and all of them load through the same two caches. A
lookup and a store are locked sections; the blob is loaded between them. Whatever the tasks do, the
order of the cached entries is the order of their last uses, `BlobCache.size` is the sum of the
cached lengths, and the caches stay within their capacity, or have only one entry
(`mountCaches_bounded`).
-/

set_option autoImplicit false

namespace Mapache

open Lib

/-! ## Trees -/

namespace TreeCache

/-- The locked sections of `TreeCache::load`. -/
def sections : CachedLoad.Sections TreeCache ID (List Node) where
  lookup c id := (c.lru.recordHit id).map fun (value, lru) => (value, { c with lru })
  store := store

theorem load_eq (loadBlob : ID → Option Bytes) (codec : TreeCodec) (c : TreeCache) (id : ID) :
    c.load loadBlob codec id = sections.load (treeOf loadBlob codec) c id := by
  unfold load CachedLoad.Sections.load treeOf
  dsimp only [sections]
  cases c.lru.recordHit id with
  | some hit => rfl
  | none => cases (loadBlob id).bind codec.fromSlice <;> rfl

/-- A load of one task alone is a run. -/
theorem exists_run_of_load {ι : Type} [DecidableEq ι] {loadBlob : ID → Option Bytes}
    {codec : TreeCodec} {s : CachedLoad.State ι TreeCache ID (List Node)} {i : ι}
    (hidle : s.phase i = .idle) {id : ID} {tree : List Node} {c : TreeCache}
    (h : s.cache.load loadBlob codec id = (some tree, c)) :
    ∃ ls, Run (CachedLoad.Step sections fun id tree => treeOf loadBlob codec id = some tree) s ls
      (s.set i .idle c) ∧ ls.reduceOption = [(id, tree)] := by
  rw [load_eq] at h
  exact CachedLoad.exists_run_load hidle h

/-- What holds of the cache after these uses. -/
structure Sound (capacity : Nat) (loads : ID → List Node → Prop) (uses : List ID) (c : TreeCache) :
    Prop where
  capacity_eq : c.capacity = capacity
  ordered : c.lru.Ordered uses
  all : c.lru.All loads
  bounded : c.lru.len ≤ capacity ∨ c.lru.len = 1

variable {capacity : Nat} {loads : ID → List Node → Prop} {uses : List ID} {c c' : TreeCache}
  {id : ID} {tree : List Node}

theorem sound_new : (new capacity).Sound capacity loads [] where
  capacity_eq := rfl
  ordered := Lru.ordered_new
  all := Lru.all_new
  bounded := .inl (Nat.zero_le _)

theorem Sound.recordHit {lru : Lru ID (List Node)} (h : c.Sound capacity loads uses)
    (hhit : c.lru.recordHit id = some (tree, lru)) :
    loads id tree ∧ ({ c with lru } : TreeCache).Sound capacity loads (uses ++ [id]) := by
  obtain ⟨hloads, hall⟩ := h.all.recordHit hhit
  refine ⟨hloads, h.capacity_eq, h.ordered.recordHit hhit, hall, ?_⟩
  have hlen := (Lru.perm_values_recordHit hhit).length_eq
  rw [Lru.length_values, Lru.length_values] at hlen
  rw [hlen]
  exact h.bounded

/-- **The one eviction** of a store makes room for a tree, or nothing is left. -/
theorem Sound.evict {lru : Lru ID (List Node)} (h : c.Sound capacity loads uses)
    (hlru : lru = if c.capacity ≤ c.lru.len then c.lru.evictOne.2 else c.lru) :
    lru.Ordered uses ∧ lru.All loads ∧ (lru.len + 1 ≤ capacity ∨ lru.len = 0) := by
  rw [h.capacity_eq] at hlru
  split at hlru
  · subst hlru
    refine ⟨h.ordered.evictOne.2, h.all.evictOne, ?_⟩
    cases hevict : c.lru.evictOne with
    | mk entry lru =>
      cases entry with
      | none =>
        obtain ⟨rfl, hlen⟩ := Lru.values_of_evictOne_none h.ordered hevict
        exact .inr hlen
      | some entry =>
        have hlen := (Lru.perm_values_evictOne h.ordered hevict).length_eq
        rw [List.length_cons, Lru.length_values, Lru.length_values] at hlen
        have hbounded := h.bounded
        dsimp only
        omega
  · subst hlru
    exact ⟨h.ordered, h.all, by omega⟩

theorem Sound.store (h : c.Sound capacity loads uses) (hloads : loads id tree) :
    loads id (c.store id tree).1 ∧ (c.store id tree).2.Sound capacity loads (uses ++ [id]) := by
  unfold TreeCache.store
  split
  · -- another task has stored the tree in the meantime
    rename_i hhit
    exact h.recordHit hhit
  · rename_i hmiss
    obtain ⟨lru, hlru⟩ : ∃ lru, lru =
      if c.capacity ≤ c.lru.len then c.lru.evictOne.2 else c.lru := ⟨_, rfl⟩
    obtain ⟨hordered, hall, hlen⟩ := h.evict hlru
    have hmiss' : lru.recordHit id = none := by
      rw [hlru]
      split
      · exact Lru.recordHit_evictOne hmiss
      · exact hmiss
    have hperm : (lru.insert id tree).values.Perm (tree :: lru.values) :=
      Lru.perm_values_insert hmiss'
    have hvalues := hperm.length_eq
    rw [List.length_cons, Lru.length_values, Lru.length_values] at hvalues
    rw [← hlru]
    refine ⟨hloads, h.capacity_eq, hordered.insert, hall.insert hloads, ?_⟩
    dsimp only
    omega

/-- **Every run** of loads. -/
theorem sound_of_run {ι : Type} [DecidableEq ι] {ls : List (Option (ID × List Node))}
    {s : CachedLoad.State ι TreeCache ID (List Node)}
    (hrun : Run (CachedLoad.Step sections loads) (.start (new capacity)) ls s) :
    CachedLoad.Good (Sound capacity loads) loads ls s := by
  refine CachedLoad.run_spec (fun uses c id tree c' hc hhit => ?_)
    (fun uses c id tree hc => hc.store) sound_new hrun
  obtain ⟨⟨_, lru⟩, hlru, heq⟩ := Option.map_eq_some_iff.mp hhit
  cases heq
  exact hc.recordHit hlru

end TreeCache

/-! ## Blobs -/

namespace BlobCache

/-- The locked sections of `BlobCache::load`. -/
def sections : CachedLoad.Sections BlobCache ID Bytes where
  lookup c id := (c.lru.recordHit id).map fun (value, lru) => (value, { c with lru })
  store := store

theorem load_eq (loadBlob : ID → Option Bytes) (c : BlobCache) (id : ID) :
    c.load loadBlob id = sections.load loadBlob c id := by
  unfold load CachedLoad.Sections.load
  dsimp only [sections]
  cases c.lru.recordHit id with
  | some hit => rfl
  | none => cases loadBlob id <;> rfl

/-- A load of one task alone is a run. -/
theorem exists_run_of_load {ι : Type} [DecidableEq ι] {loadBlob : ID → Option Bytes}
    {s : CachedLoad.State ι BlobCache ID Bytes} {i : ι} (hidle : s.phase i = .idle) {id : ID}
    {blob : Bytes} {c : BlobCache} (h : s.cache.load loadBlob id = (some blob, c)) :
    ∃ ls, Run (CachedLoad.Step sections fun id blob => loadBlob id = some blob) s ls
      (s.set i .idle c) ∧ ls.reduceOption = [(id, blob)] := by
  rw [load_eq] at h
  exact CachedLoad.exists_run_load hidle h

/-- The number of cached bytes. -/
def cachedLen (c : BlobCache) : Nat := (c.lru.values.map List.length).sum

/-- What holds of the cache, also while it makes room for a blob: the entries are in the order of
their uses, the size is the number of cached bytes, and an eviction does not make it negative. -/
structure Accounted (uses : List ID) (c : BlobCache) : Prop where
  ordered : c.lru.Ordered uses
  size_eq : c.size = c.cachedLen
  evicted_le : ∀ id blob lru, c.lru.evictOne = (some (id, blob), lru) → blob.length ≤ c.size

/-- What holds of the cache after these uses. -/
structure Sound (capacity : Nat) (loads : ID → Bytes → Prop) (uses : List ID) (c : BlobCache) :
    Prop where
  capacity_eq : c.capacity = capacity
  accounted : c.Accounted uses
  all : c.lru.All loads
  bounded : c.size ≤ capacity ∨ c.lru.len = 1

section Room

variable {uses : List ID} {c : BlobCache} {id : ID}

/-- The size is enough to know that no eviction makes it negative. -/
theorem Accounted.of_size_eq (hordered : c.lru.Ordered uses) (hsize : c.size = c.cachedLen) :
    c.Accounted uses := by
  refine ⟨hordered, hsize, fun id blob lru hevict => ?_⟩
  have hsum := ((Lru.perm_values_evictOne hordered hevict).map List.length).sum_nat
  rw [List.map_cons, List.sum_cons] at hsum
  rw [hsize, cachedLen, hsum]
  exact Nat.le_add_right _ _

/-- **An eviction** takes the evicted bytes from the size. -/
theorem Accounted.evictOne {blob : Bytes} {lru : Lru ID Bytes} (h : c.Accounted uses)
    (hevict : c.lru.evictOne = (some (id, blob), lru)) :
    ({ c with lru, size := c.size - blob.length } : BlobCache).Accounted uses := by
  have hordered := h.ordered.evictOne.2
  rw [hevict] at hordered
  refine .of_size_eq hordered ?_
  have hsum := ((Lru.perm_values_evictOne h.ordered hevict).map List.length).sum_nat
  rw [List.map_cons, List.sum_cons] at hsum
  rw [h.size_eq, cachedLen, cachedLen, hsum]
  exact Nat.add_sub_cancel_left ..

/-- What each iteration of the loop keeps holds wherever the loop is. -/
theorem makeRoom_induction {P : BlobCache → Prop} (blobLen fuel : Nat)
    (hevict : ∀ c id blob lru, P c → c.lru.evictOne = (some (id, blob), lru) →
      P { c with lru, size := c.size - blob.length })
    (hnone : ∀ c lru, P c → c.lru.evictOne = (none, lru) → P { c with lru }) (hc : P c) :
    P (c.makeRoom blobLen fuel) := by
  induction fuel generalizing c with
  | zero => exact hc
  | succ fuel ih =>
    rw [makeRoom]
    split
    · split
      · rename_i heq
        exact ih (hevict _ _ _ _ hc heq)
      · rename_i heq
        exact hnone _ _ hc heq
    · exact hc

theorem Accounted.makeRoom (h : c.Accounted uses) (blobLen fuel : Nat) :
    (c.makeRoom blobLen fuel).Accounted uses := by
  refine makeRoom_induction blobLen fuel (fun c id blob lru hc => hc.evictOne) ?_ h
  intro c lru hc hevict
  rw [(Lru.values_of_evictOne_none hc.ordered hevict).1]
  exact hc

theorem all_makeRoom {P : ID → Bytes → Prop} (h : c.lru.All P) (blobLen fuel : Nat) :
    (c.makeRoom blobLen fuel).lru.All P := by
  refine makeRoom_induction (P := fun c => c.lru.All P) blobLen fuel ?_ ?_ h
  · intro c id blob lru hc hevict
    have hall := hc.evictOne
    rwa [hevict] at hall
  · intro c lru hc hevict
    have hall := hc.evictOne
    rwa [hevict] at hall

theorem recordHit_makeRoom (h : c.lru.recordHit id = none) (blobLen fuel : Nat) :
    (c.makeRoom blobLen fuel).lru.recordHit id = none := by
  refine makeRoom_induction (P := fun c => c.lru.recordHit id = none) blobLen fuel ?_ ?_ h
  · intro c id' blob lru hc hevict
    have hmiss := Lru.recordHit_evictOne hc
    rwa [hevict] at hmiss
  · intro c lru hc hevict
    have hmiss := Lru.recordHit_evictOne hc
    rwa [hevict] at hmiss

theorem capacity_makeRoom (blobLen fuel : Nat) :
    (c.makeRoom blobLen fuel).capacity = c.capacity :=
  makeRoom_induction (P := fun c' => c'.capacity = c.capacity) blobLen fuel
    (fun _ _ _ _ hc _ => hc) (fun _ _ hc _ => hc) rfl

/-- **The loop ends** when there is room for the blob or nothing is left to evict, before the fuel
does. -/
theorem Accounted.makeRoom_fits (h : c.Accounted uses) (blobLen : Nat) {fuel : Nat}
    (hfuel : c.lru.orderMap.keys.length < fuel) :
    (c.makeRoom blobLen fuel).size + blobLen ≤ c.capacity ∨
      (c.makeRoom blobLen fuel).lru.len = 0 := by
  induction fuel generalizing c with
  | zero => exact absurd hfuel (Nat.not_lt_zero _)
  | succ fuel ih =>
    rw [BlobCache.makeRoom]
    split
    · split
      · rename_i hevict
        have hkeys := Lru.length_keys_evictOne hevict
        exact ih (h.evictOne hevict) (by dsimp only; omega)
      · rename_i hevict
        obtain ⟨rfl, hlen⟩ := Lru.values_of_evictOne_none h.ordered hevict
        exact .inr hlen
    · rename_i hroom
      exact .inl (Nat.le_of_not_lt hroom)

end Room

variable {capacity : Nat} {loads : ID → Bytes → Prop} {uses : List ID} {c : BlobCache} {id : ID}
  {blob : Bytes}

theorem sound_new : (new capacity).Sound capacity loads [] where
  capacity_eq := rfl
  accounted := .of_size_eq Lru.ordered_new rfl
  all := Lru.all_new
  bounded := .inl (Nat.zero_le _)

theorem Sound.recordHit {lru : Lru ID Bytes} (h : c.Sound capacity loads uses)
    (hhit : c.lru.recordHit id = some (blob, lru)) :
    loads id blob ∧ ({ c with lru } : BlobCache).Sound capacity loads (uses ++ [id]) := by
  obtain ⟨hloads, hall⟩ := h.all.recordHit hhit
  have hperm := Lru.perm_values_recordHit hhit
  have hsize : c.size = (lru.values.map List.length).sum := by
    rw [(hperm.map List.length).sum_nat]
    exact h.accounted.size_eq
  have hlen := hperm.length_eq
  rw [Lru.length_values, Lru.length_values] at hlen
  refine ⟨hloads, h.capacity_eq, .of_size_eq (h.accounted.ordered.recordHit hhit) hsize, hall, ?_⟩
  rw [hlen]
  exact h.bounded

theorem Sound.store (h : c.Sound capacity loads uses) (hloads : loads id blob) :
    loads id (c.store id blob).1 ∧ (c.store id blob).2.Sound capacity loads (uses ++ [id]) := by
  unfold BlobCache.store
  split
  · -- another task has stored the blob in the meantime
    rename_i hhit
    exact h.recordHit hhit
  · rename_i hmiss
    have hroom := h.accounted.makeRoom blob.length (c.lru.orderMap.keys.length + 1)
    have hfits := h.accounted.makeRoom_fits blob.length (Nat.lt_succ_self _)
    have hall := all_makeRoom h.all blob.length (c.lru.orderMap.keys.length + 1)
    have hmiss' := recordHit_makeRoom hmiss blob.length (c.lru.orderMap.keys.length + 1)
    have hcapacity := capacity_makeRoom (c := c) blob.length (c.lru.orderMap.keys.length + 1)
    generalize c.makeRoom blob.length (c.lru.orderMap.keys.length + 1) = room at *
    have hperm : (room.lru.insert id blob).values.Perm (blob :: room.lru.values) :=
      Lru.perm_values_insert hmiss'
    refine ⟨hloads, hcapacity.trans h.capacity_eq, ?_, hall.insert hloads, ?_⟩
    · refine .of_size_eq hroom.ordered.insert ?_
      have hsum := (hperm.map List.length).sum_nat
      rw [List.map_cons, List.sum_cons] at hsum
      rw [cachedLen, hsum]
      dsimp only
      rw [hroom.size_eq, cachedLen]
      exact Nat.add_comm _ _
    · have hlen := hperm.length_eq
      rw [List.length_cons, Lru.length_values, Lru.length_values] at hlen
      rw [h.capacity_eq] at hfits
      rcases hfits with hle | hempty
      · exact .inl hle
      · exact .inr (by rw [hlen, hempty])

/-- **Every run** of loads. -/
theorem sound_of_run {ι : Type} [DecidableEq ι] {ls : List (Option (ID × Bytes))}
    {s : CachedLoad.State ι BlobCache ID Bytes}
    (hrun : Run (CachedLoad.Step sections loads) (.start (new capacity)) ls s) :
    CachedLoad.Good (Sound capacity loads) loads ls s := by
  refine CachedLoad.run_spec (fun uses c id blob c' hc hhit => ?_)
    (fun uses c id blob hc => hc.store) sound_new hrun
  obtain ⟨⟨_, lru⟩, hlru, heq⟩ := Option.map_eq_some_iff.mp hhit
  cases heq
  exact hc.recordHit hlru

end BlobCache

/-! ## All tasks -/

/-- **The caches of a mount are bounded and return what was loaded.** In every state that loads of
any tasks reach, the entries of a cache are in the order of their last uses and the next one that is
evicted is the one that was not used for longest, also while a store makes room; the tree cache has
no more trees than its capacity, or one, and the blob cache no more bytes, or one blob; the size is
the number of cached bytes and no eviction makes it negative; and every load that returned gave what
the loader has for the ID. -/
theorem mountCaches_bounded {ι : Type} [DecidableEq ι] (loadBlob : ID → Option Bytes)
    (codec : TreeCodec) (capacity : Nat) :
    (∀ ls (s : CachedLoad.State ι TreeCache ID (List Node)),
      Run (CachedLoad.Step TreeCache.sections fun id tree => treeOf loadBlob codec id = some tree)
        (.start (.new capacity)) ls s →
      s.cache.lru.Ordered (CachedLoad.keysOf ls) ∧ s.cache.lru.EvictsOldest (CachedLoad.keysOf ls) ∧
        (s.cache.lru.len ≤ capacity ∨ s.cache.lru.len = 1) ∧
        ∀ id tree, some (id, tree) ∈ ls → treeOf loadBlob codec id = some tree) ∧
    ∀ ls (s : CachedLoad.State ι BlobCache ID Bytes),
      Run (CachedLoad.Step BlobCache.sections fun id blob => loadBlob id = some blob)
        (.start (.new capacity)) ls s →
      (∀ blobLen evictions, (s.cache.makeRoom blobLen evictions).Accounted (CachedLoad.keysOf ls) ∧
        (s.cache.makeRoom blobLen evictions).lru.EvictsOldest (CachedLoad.keysOf ls)) ∧
      s.cache.Accounted (CachedLoad.keysOf ls) ∧ s.cache.lru.EvictsOldest (CachedLoad.keysOf ls) ∧
      (s.cache.size ≤ capacity ∨ s.cache.lru.len = 1) ∧
      ∀ id blob, some (id, blob) ∈ ls → loadBlob id = some blob := by
  constructor
  · intro ls s hrun
    have hgood := TreeCache.sound_of_run hrun
    have hordered := hgood.cache.ordered
    exact ⟨hordered, hordered.evictOne.1, hgood.cache.bounded, hgood.returned⟩
  · intro ls s hrun
    have hgood := BlobCache.sound_of_run hrun
    have hacc := hgood.cache.accounted
    refine ⟨fun blobLen evictions => ?_, hacc, hacc.ordered.evictOne.1, hgood.cache.bounded,
      hgood.returned⟩
    have hroom := hacc.makeRoom blobLen evictions
    exact ⟨hroom, hroom.ordered.evictOne.1⟩

end Mapache
