import Mathlib.Data.Finset.Card
import Mapache.Common.Error
import Mapache.Repository.MasterIndex
import Mapache.Utils.Hex

/-!
# Searching an ID by its first digits

`MasterIndex::search_prefix` of `repository/index.rs`. It collects one match for each entry of each
index, while what it is asked for is an ID: a blob that two indices know, or that one index knows
both as data and as a tree, is collected twice. `searchExact_iff` says which indices make the
difference.
-/

set_option autoImplicit false

namespace Mapache

open Lib

/-- `id.to_hex().starts_with(prefix)`. -/
def ID.hexStartsWith (pre : String) (id : ID) : Bool := pre.toList.isPrefixOf id.toHex.toList

namespace MasterIndex

/-- `matched` of `search_prefix`: what `for_each_id` hands to the closure, filtered. -/
def matched (mi : MasterIndex) (pre : String) : List ID :=
  (mi.entries.map Prod.fst).filter (ID.hexStartsWith pre)

/-- `MasterIndex::search_prefix`. -/
def searchPrefix (mi : MasterIndex) (pre : String) : Except MapacheError (Option ID) :=
  let matched := mi.matched pre
  if matched.length > 1 then .error (.format s!"prefix '{pre}' is ambiguous")
  else .ok matched.head?

/-- The distinct IDs of all indices that start with the prefix. -/
def matchingIds (mi : MasterIndex) (pre : String) : Finset ID :=
  {id ∈ (mi.entries.map Prod.fst).toFinset | id.hexStartsWith pre = true}

/-- The number of entries of an ID in all indices. -/
def numEntries (mi : MasterIndex) (id : ID) : Nat := (mi.entries.map Prod.fst).count id

/-- The search tells the number of distinct matching IDs: one is returned, several are ambiguous,
none is not found. -/
structure SearchExact (mi : MasterIndex) (pre : String) : Prop where
  unique : ∀ id, mi.matchingIds pre = {id} → mi.searchPrefix pre = .ok (some id)
  ambiguous : 2 ≤ (mi.matchingIds pre).card →
    mi.searchPrefix pre = .error (.format s!"prefix '{pre}' is ambiguous")
  missing : mi.matchingIds pre = ∅ → mi.searchPrefix pre = .ok none

section

variable {mi : MasterIndex} {pre : String} {id : ID}

theorem toFinset_matched : (mi.matched pre).toFinset = mi.matchingIds pre :=
  List.toFinset_filter ..

/-- Every entry of a matching ID is collected. -/
theorem count_matched (h : id.hexStartsWith pre = true) :
    (mi.matched pre).count id = mi.numEntries id :=
  List.count_filter h

theorem searchPrefix_of_two (h : 1 < (mi.matched pre).length) :
    mi.searchPrefix pre = .error (.format s!"prefix '{pre}' is ambiguous") :=
  if_pos h

theorem searchPrefix_of_le_one (h : (mi.matched pre).length ≤ 1) :
    mi.searchPrefix pre = .ok (mi.matched pre).head? :=
  if_neg (by omega)

/-- Several distinct IDs are at least as many matches. -/
theorem searchPrefix_of_card (h : 2 ≤ (mi.matchingIds pre).card) :
    mi.searchPrefix pre = .error (.format s!"prefix '{pre}' is ambiguous") := by
  apply searchPrefix_of_two
  have hcard : (mi.matched pre).toFinset.card ≤ (mi.matched pre).length := List.toFinset_card_le _
  rw [toFinset_matched] at hcard
  omega

theorem searchPrefix_of_empty (h : mi.matchingIds pre = ∅) : mi.searchPrefix pre = .ok none := by
  rw [← toFinset_matched, List.toFinset_eq_empty_iff] at h
  rw [searchPrefix_of_le_one (by rw [h]; exact Nat.zero_le _), h]
  rfl

/-- With a single distinct match every collected ID is that one. -/
theorem matched_eq_replicate (h : mi.matchingIds pre = {id}) :
    mi.matched pre = List.replicate (mi.numEntries id) id := by
  have hmem : ∀ other ∈ mi.matched pre, other = id := by
    intro other hother
    have hin : other ∈ mi.matchingIds pre := by
      rw [← toFinset_matched]
      exact List.mem_toFinset.mpr hother
    rw [h] at hin
    exact Finset.mem_singleton.mp hin
  have hself : id ∈ mi.matchingIds pre := by
    rw [h]
    exact Finset.mem_singleton_self id
  have hlen : (mi.matched pre).length = mi.numEntries id := by
    rw [← count_matched (Finset.mem_filter.mp hself).2]
    exact (List.count_eq_length.mpr fun other hother => (hmem other hother).symm).symm
  rw [← hlen]
  exact List.eq_replicate_of_mem hmem

/-- The single match is returned when it has a single entry, and only then. -/
theorem searchPrefix_unique_iff (h : mi.matchingIds pre = {id}) :
    mi.searchPrefix pre = .ok (some id) ↔ mi.numEntries id = 1 := by
  have hmatched := matched_eq_replicate h
  constructor
  · intro hfound
    have hle : ¬ 1 < (mi.matched pre).length := by
      intro htwo
      rw [searchPrefix_of_two htwo] at hfound
      cases hfound
    -- no entry at all would be `not found`
    have hne : mi.numEntries id ≠ 0 := by
      intro hzero
      rw [searchPrefix_of_le_one (by omega), hmatched, hzero] at hfound
      cases hfound
    rw [hmatched, List.length_replicate] at hle
    omega
  · intro hone
    rw [hone, List.replicate_one] at hmatched
    rw [searchPrefix_of_le_one (by rw [hmatched]; exact Nat.le_refl 1), hmatched]
    rfl

end

/-- The search is exact if and only if an ID that is the only match has a single entry. -/
theorem searchExact_iff (mi : MasterIndex) (pre : String) :
    mi.SearchExact pre ↔ ∀ id, mi.matchingIds pre = {id} → mi.numEntries id = 1 := by
  constructor
  · intro hexact id h
    exact (searchPrefix_unique_iff h).mp (hexact.unique id h)
  · intro hone
    refine ⟨?_, searchPrefix_of_card, searchPrefix_of_empty⟩
    intro id h
    exact (searchPrefix_unique_iff h).mpr (hone id h)

/-- Two loaded indices that know one blob, each in a pack of its own. -/
def twiceIndexed : MasterIndex :=
  (new.addIndex ((Index.new 1).addPack 1 [⟨5, .data, 0, 10, 10⟩])).addIndex
    ((Index.new 2).addPack 2 [⟨5, .data, 0, 10, 10⟩])

/-- The blob is the only one that starts with `00`, and the prefix is ambiguous. -/
theorem searchPrefix_twiceIndexed :
    twiceIndexed.matchingIds "00" = {5} ∧
      twiceIndexed.searchPrefix "00" = .error (.format "prefix '00' is ambiguous") ∧
      ¬ twiceIndexed.SearchExact "00" := by
  have hone : twiceIndexed.matchingIds "00" = {5} := by decide
  have hfail : twiceIndexed.searchPrefix "00" = .error (.format "prefix '00' is ambiguous") := rfl
  refine ⟨hone, hfail, ?_⟩
  intro hexact
  have hfound := hexact.unique 5 hone
  rw [hfail] at hfound
  cases hfound

end MasterIndex

end Mapache
