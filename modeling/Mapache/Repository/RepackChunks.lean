import Mathlib.Algebra.Order.BigOperators.Group.List
import Mapache.Lib.Semaphore
import Mapache.Repository.GcExecute

/-!
# The chunks of a repack

`Plan::repack` of `repository/gc.rs` loads its blobs in chunks. The chunks are slices of the list of
blobs, one after the other (`flatten_repackChunks`), and each fits the budget or has one blob with
bytes (`fits_of_mem_repackChunks`). A chunk asks a semaphore for a permit for each of its bytes, as
far as the semaphore has so many (`permits_le`), so no chunk waits forever
(`repack_within_budget`).
-/

set_option autoImplicit false

namespace Mapache

open Lib

/-! ## The permits -/

/-- `u32::MAX`. -/
def u32Max : Nat := 2 ^ 32 - 1

section Permits

variable (usizeBits budget : Nat) (chunk : List (ID × BlobLocator))

/-- The decoded bytes of a chunk. -/
def rawBytesOf : Nat := (chunk.map fun e => e.2.rawLength).sum

/-- `sem_capacity`, with a `usize` of so many bits. -/
def semCapacity : Nat := max (min (budget % 2 ^ usizeBits) u32Max) 1

/-- `chunk_bytes`, which wraps around in a release build. -/
def chunkBytes : Nat := rawBytesOf chunk % 2 ^ usizeBits

/-- `needed`. -/
def needed : Nat := min (chunkBytes usizeBits chunk) (semCapacity usizeBits budget)

/-- The argument of `acquire_many`: `u32::try_from(needed).unwrap_or(u32::MAX)`. -/
def permits : Nat :=
  if needed usizeBits budget chunk ≤ u32Max then needed usizeBits budget chunk else u32Max

/-- No chunk asks for more permits than the semaphore has, and none is lost in the conversion. -/
theorem permits_le :
    permits usizeBits budget chunk = needed usizeBits budget chunk ∧
      permits usizeBits budget chunk ≤ semCapacity usizeBits budget := by
  have hneeded : needed usizeBits budget chunk ≤ semCapacity usizeBits budget := min_le_right _ _
  have hcapacity : semCapacity usizeBits budget ≤ u32Max :=
    max_le (min_le_right _ _) (by decide)
  have heq : permits usizeBits budget chunk = needed usizeBits budget chunk :=
    if_pos (hneeded.trans hcapacity)
  exact ⟨heq, heq ▸ hneeded⟩

end Permits

/-! ## The chunks -/

/-- The blobs of a chunk that have bytes. -/
def nonEmptyBlobs (chunk : List (ID × BlobLocator)) : List (ID × BlobLocator) :=
  chunk.filter fun e => e.2.rawLength ≠ 0

/-- A chunk fits the budget, or it has one blob with bytes. -/
def FitsBudget (budget : Nat) (chunk : List (ID × BlobLocator)) : Prop :=
  rawBytesOf chunk ≤ budget ∨ (nonEmptyBlobs chunk).length = 1

section Chunks

variable {budget acc : Nat} {es current chunk : List (ID × BlobLocator)} {e : ID × BlobLocator}

theorem rawBytesOf_append (front back : List (ID × BlobLocator)) :
    rawBytesOf (front ++ back) = rawBytesOf front + rawBytesOf back := by
  simp [rawBytesOf]

theorem rawBytesOf_singleton (e : ID × BlobLocator) : rawBytesOf [e] = e.2.rawLength := by
  simp [rawBytesOf]

/-- A chunk without bytes has no blob with bytes. -/
theorem nonEmptyBlobs_eq_nil (h : rawBytesOf current = 0) : nonEmptyBlobs current = [] := by
  rw [nonEmptyBlobs, List.filter_eq_nil_iff]
  intro e he
  have hzero := List.sum_eq_zero_iff.mp h e.2.rawLength
    (List.mem_map_of_mem (f := fun e : ID × BlobLocator => e.2.rawLength) he)
  simpa using hzero

/-- One more blob after none with bytes: it fits, or it is the only one. -/
theorem fitsBudget_append_of_zero (budget : Nat) (e : ID × BlobLocator)
    (h : rawBytesOf current = 0) : FitsBudget budget (current ++ [e]) := by
  by_cases hraw : e.2.rawLength = 0
  · left
    rw [rawBytesOf_append, rawBytesOf_singleton, h, hraw]
    exact Nat.zero_le _
  · right
    have hnil := nonEmptyBlobs_eq_nil h
    unfold nonEmptyBlobs at hnil ⊢
    rw [List.filter_append, hnil]
    simp [hraw]

/-- The loop keeps the bytes of the chunk at hand, and every chunk within the budget. -/
theorem fits_of_mem_chunkLoop (hacc : acc = rawBytesOf current) (hcurrent : FitsBudget budget current)
    (h : chunk ∈ chunkLoop budget es current acc) : FitsBudget budget chunk := by
  induction es generalizing current acc with
  | nil =>
    rw [chunkLoop] at h
    split at h
    · cases h
    · rw [List.mem_singleton.mp h]
      exact hcurrent
  | cons e es ih =>
    rw [chunkLoop] at h
    split at h
    · rcases List.mem_cons.mp h with rfl | hrest
      · exact hcurrent
      · have hsingle : FitsBudget budget ([] ++ [e]) := fitsBudget_append_of_zero budget e rfl
        exact ih (rawBytesOf_singleton e).symm hsingle hrest
    · rename_i hcut
      apply ih ?_ ?_ h
      · rw [rawBytesOf_append, rawBytesOf_singleton, hacc]
      · -- the chunk is not cut: it has no bytes yet, or there is room
        by_cases hzero : acc = 0
        · exact fitsBudget_append_of_zero budget e (hacc ▸ hzero)
        · left
          rw [rawBytesOf_append, rawBytesOf_singleton, ← hacc]
          omega

theorem fits_of_mem_repackChunks {locators : List (ID × BlobLocator)}
    (h : chunk ∈ repackChunks budget locators) : FitsBudget budget chunk :=
  fits_of_mem_chunkLoop rfl (Or.inl (Nat.zero_le _)) h

/-- No chunk is empty. -/
theorem ne_nil_of_mem_chunkLoop (hacc : 0 < acc → current ≠ [])
    (h : chunk ∈ chunkLoop budget es current acc) : chunk ≠ [] := by
  induction es generalizing current acc with
  | nil =>
    rw [chunkLoop] at h
    split at h
    · cases h
    · rename_i hne
      rw [List.mem_singleton.mp h]
      exact hne
  | cons e es ih =>
    rw [chunkLoop] at h
    split at h
    · rename_i hcut
      rcases List.mem_cons.mp h with rfl | hrest
      · exact hacc hcut.1
      · exact ih (fun _ => List.cons_ne_nil _ _) hrest
    · exact ih (fun _ => by simp) h

theorem ne_nil_of_mem_repackChunks {locators : List (ID × BlobLocator)}
    (h : chunk ∈ repackChunks budget locators) : chunk ≠ [] :=
  ne_nil_of_mem_chunkLoop (fun h0 => absurd h0 (lt_irrefl 0)) h

end Chunks

/-! ## The loads -/

/-- The chunks of a repack behind the semaphore, at most `maxConcurrent` of them at a time. -/
def LoadStep (usizeBits budget maxConcurrent : Nat) :
    Jobs (List (ID × BlobLocator)) → JobEvent (List (ID × BlobLocator)) →
      Jobs (List (ID × BlobLocator)) → Prop :=
  Jobs.Step maxConcurrent (permits usizeBits budget)

/-- The chunks of a repack before the first one is loaded. -/
def startLoads (usizeBits budget : Nat) (locators : List (ID × BlobLocator)) :
    Jobs (List (ID × BlobLocator)) :=
  .start (semCapacity usizeBits budget) (repackChunks budget locators)

/-- **A repack loads every blob within its budget.** Its chunks are slices of the locators, none is
empty, and each fits the budget or has one blob with bytes. No chunk asks for more permits than there
are: with any number of them at a time, a run of the loads has at most four steps for each chunk, the
chunks get their permits in their order, and the run does not end while one of them waits, nor before
every chunk has had its permits. -/
theorem repack_within_budget (usizeBits budget : Nat) (locators : List (ID × BlobLocator)) :
    (repackChunks budget locators).flatten = locators ∧
    (∀ chunk ∈ repackChunks budget locators, chunk ≠ [] ∧
      (rawBytesOf chunk ≤ budget ∨ (nonEmptyBlobs chunk).length = 1) ∧
      permits usizeBits budget chunk ≤ semCapacity usizeBits budget) ∧
    ∀ (maxConcurrent : Nat) (es : List (JobEvent (List (ID × BlobLocator))))
      (s : Jobs (List (ID × BlobLocator))),
      Run (LoadStep usizeBits budget maxConcurrent) (startLoads usizeBits budget locators) es s →
        es.length ≤ 4 * (repackChunks budget locators).length ∧
        es.filterMap JobEvent.acquires ++ s.waiting ++ s.todo = repackChunks budget locators ∧
        (s.waiting ≠ [] → ∃ e s', LoadStep usizeBits budget maxConcurrent s e s') ∧
        (0 < maxConcurrent → (∀ e s', ¬ LoadStep usizeBits budget maxConcurrent s e s') →
          es.filterMap JobEvent.acquires = repackChunks budget locators) := by
  have hpermits (chunk : List (ID × BlobLocator)) :
      permits usizeBits budget chunk ≤ semCapacity usizeBits budget :=
    (permits_le usizeBits budget chunk).2
  refine ⟨flatten_repackChunks budget locators, ?_, ?_⟩
  · intro chunk hchunk
    exact ⟨ne_nil_of_mem_repackChunks hchunk, fits_of_mem_repackChunks hchunk, hpermits chunk⟩
  · intro maxConcurrent es s hrun
    have hlength := Jobs.length_add_weight hrun
    refine ⟨by omega, Jobs.acquired_append hrun, ?_, ?_⟩
    · exact Jobs.exists_step_of_waiting (fun chunk _ => hpermits chunk) hrun
    · intro hlimit hfinal
      exact Jobs.acquired_of_final (fun chunk _ => hpermits chunk) hlimit hrun hfinal

end Mapache
