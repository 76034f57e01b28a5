import Mapache.Fs.Tree
import Mapache.Utils.Lru

/-!
# The caches of a mount

`TreeCache` and `BlobCache` of `mount/fuse/cache.rs`. What is loaded through a cache is what the
loader gives, whatever the cache has evicted (`BlobCache.load_spec`, `TreeCache.load_spec`).
-/

set_option autoImplicit false

namespace Mapache

open Lib

/-! ## Trees -/

/-- `TreeCache`. The capacity is a number of trees. -/
structure TreeCache where
  capacity : Nat
  lru : Lru ID (List Node)

namespace TreeCache

def new (capacity : Nat) : TreeCache := ⟨capacity, .new⟩

/-- The locked section of `TreeCache::load` after a miss. -/
def store (c : TreeCache) (id : ID) (tree : List Node) : List Node × TreeCache :=
  match c.lru.recordHit id with
  | some (value, lru) => (value, { c with lru })
  | none =>
    let lru := if c.capacity ≤ c.lru.len then c.lru.evictOne.2 else c.lru
    (tree, { c with lru := lru.insert id tree })

/-- `TreeCache::load`. Loading a blob and reading it may fail. -/
def load (loadBlob : ID → Option Bytes) (codec : TreeCodec) (c : TreeCache) (id : ID) :
    Option (List Node) × TreeCache :=
  match c.lru.recordHit id with
  | some (value, lru) => (some value, { c with lru })
  | none =>
    match (loadBlob id).bind codec.fromSlice with
    | none => (none, c)
    | some tree => ((c.store id tree).1, (c.store id tree).2)

end TreeCache

/-! ## Blobs -/

/-- `BlobCache`. The capacity is a number of bytes. -/
structure BlobCache where
  capacity : Nat
  lru : Lru ID Bytes
  size : Nat

namespace BlobCache

def new (capacity : Nat) : BlobCache := ⟨capacity, .new, 0⟩

/-- The loop that makes room for a blob. The fuel bounds the number of evictions. -/
def makeRoom (blobLen : Nat) : Nat → BlobCache → BlobCache
  | 0, c => c
  | fuel + 1, c =>
    if c.capacity < c.size + blobLen then
      match c.lru.evictOne with
      | (some (_, evicted), lru) =>
        makeRoom blobLen fuel { c with lru, size := c.size - evicted.length }
      | (none, lru) => { c with lru }
    else c

/-- The locked section of `BlobCache::load` after a miss. -/
def store (c : BlobCache) (id : ID) (blob : Bytes) : Bytes × BlobCache :=
  match c.lru.recordHit id with
  | some (value, lru) => (value, { c with lru })
  | none =>
    let c := c.makeRoom blob.length (c.lru.orderMap.keys.length + 1)
    (blob, { c with lru := c.lru.insert id blob, size := c.size + blob.length })

/-- `BlobCache::load`. -/
def load (loadBlob : ID → Option Bytes) (c : BlobCache) (id : ID) : Option Bytes × BlobCache :=
  match c.lru.recordHit id with
  | some (value, lru) => (some value, { c with lru })
  | none =>
    match loadBlob id with
    | none => (none, c)
    | some blob => ((c.store id blob).1, (c.store id blob).2)

end BlobCache

/-! ## What is loaded -/

section Load

variable {loadBlob : ID → Option Bytes} {codec : TreeCodec} {plain : ID → Bytes} {id : ID}

/-- The cached blobs are those of the loader. -/
def BlobCache.Holds (plain : ID → Bytes) (c : BlobCache) : Prop := c.lru.Holds plain

theorem BlobCache.holds_new (capacity : Nat) : (BlobCache.new capacity).Holds plain := Lru.holds_new

theorem BlobCache.Holds.makeRoom {c : BlobCache} (h : c.Holds plain) (blobLen fuel : Nat) :
    (c.makeRoom blobLen fuel).Holds plain := by
  induction fuel generalizing c with
  | zero => exact h
  | succ fuel ih =>
    have hevict : c.lru.evictOne.2.Holds plain := Lru.Holds.evictOne h
    rw [BlobCache.makeRoom]
    split
    · split
      · rename_i heq
        rw [heq] at hevict
        exact ih hevict
      · rename_i heq
        rw [heq] at hevict
        exact hevict
    · exact h

/-- **What is loaded through the cache** is what the loader gives. -/
theorem BlobCache.load_spec {c c' : BlobCache} {result : Option Bytes} (h : c.Holds plain)
    (hload : ∀ data, loadBlob id = some data → data = plain id)
    (heq : c.load loadBlob id = (result, c')) :
    c'.Holds plain ∧ (∀ data, result = some data → data = plain id) ∧
      (loadBlob id = some (plain id) → result = some (plain id)) := by
  unfold BlobCache.load at heq
  split at heq
  · rename_i value lru hhit
    obtain ⟨rfl, hlru⟩ := Lru.Holds.recordHit h hhit
    cases heq
    exact ⟨hlru, fun _ hdata => (Option.some.inj hdata).symm, fun _ => rfl⟩
  · rename_i hmiss
    split at heq
    · rename_i hnone
      cases heq
      exact ⟨h, nofun, fun hsome => by rw [hnone] at hsome; cases hsome⟩
    · rename_i blob hblob
      have hplain := hload blob hblob
      rw [BlobCache.store, hmiss] at heq
      cases heq
      refine ⟨(h.makeRoom _ _).insert hplain, fun data hdata => ?_, fun _ => congrArg some hplain⟩
      cases hdata
      exact hplain

/-- What the loader has of a tree. -/
def treeOf (loadBlob : ID → Option Bytes) (codec : TreeCodec) (id : ID) : Option (List Node) :=
  (loadBlob id).bind codec.fromSlice

/-- The cached trees are those of the loader. -/
def TreeCache.Holds (trees : ID → List Node) (c : TreeCache) : Prop := c.lru.Holds trees

theorem TreeCache.load_spec {trees : ID → List Node} {c c' : TreeCache} {result : Option (List Node)}
    (h : c.Holds trees) (hload : ∀ tree, treeOf loadBlob codec id = some tree → tree = trees id)
    (heq : c.load loadBlob codec id = (result, c')) :
    c'.Holds trees ∧ ∀ tree, result = some tree → tree = trees id := by
  unfold TreeCache.load at heq
  split at heq
  · rename_i value lru hhit
    obtain ⟨rfl, hlru⟩ := Lru.Holds.recordHit h hhit
    cases heq
    exact ⟨hlru, fun _ htree => (Option.some.inj htree).symm⟩
  · rename_i hmiss
    split at heq
    · cases heq
      refine ⟨h, fun tree htree => ?_⟩
      cases htree
    · rename_i tree htree
      have hplain := hload tree htree
      rw [TreeCache.store, hmiss] at heq
      cases heq
      refine ⟨Lru.Holds.insert ?_ hplain, fun tree' htree' => ?_⟩
      · split
        · exact Lru.Holds.evictOne h
        · exact h
      · cases htree'
        exact hplain

/-- A tree that the loader has is loaded. -/
theorem TreeCache.load_isSome (c : TreeCache) (h : (treeOf loadBlob codec id).isSome = true) :
    (c.load loadBlob codec id).1.isSome = true := by
  obtain ⟨tree, htree⟩ := Option.isSome_iff_exists.mp h
  unfold treeOf at htree
  unfold TreeCache.load
  split
  · rfl
  · rename_i hmiss
    rw [htree]
    dsimp only
    rw [TreeCache.store, hmiss]
    rfl

end Load

end Mapache
