import Mapache.Commands.Snapshot
import Mapache.Repository.GcSafety

/-!
# Backups after a stopped garbage collection

A backup does not store a blob that the index claims to have. After a garbage collection that was
stopped (by a crash, by the shutdown signal or by an error) the index files must therefore not list
blobs of packs that are gone. They do not, if no unused pack has entries in the index, there is no
leftover, and an index file whose deletion failed has no entry in an obsolete pack
(`stopped_execution_stays_consistent`).

The unused packs are deleted before the index files are written anew, so an unused pack with entries
breaks this at the checkpoint that follows their deletion (`interrupted_execution_dangles`).
-/

set_option autoImplicit false

namespace Mapache

open Lib

namespace Gc

variable {κ : Type} {n : Nat} {env : Env} {codec : TreeCodec} {plain : ID → Bytes} {limits : GcLimits}
  {config : GcConfig} {b₀ : Backend} {mi₀ : MasterIndex} {plan : Plan} {spared : Set IndexFile}
  {s : Gc κ n}

/-- In consistent files the snapshots are as complete as they were. -/
theorem Inv.snapshotsComplete (hset : GcSetting env codec plain limits b₀ mi₀ plan)
    (h : s.Inv env plain b₀ mi₀ plan spared) (hb : s.backend.Consistent env plain)
    (hcomplete : b₀.SnapshotsComplete env codec plain) :
    s.backend.SnapshotsComplete env codec plain := by
  intro sid snap hsnap id hid
  obtain ⟨lost, hkept⟩ := h.exists_kept
  rw [hkept.snapshots] at hsnap
  -- the index had the blob, so it is wanted
  have hwanted : plan.Wanted mi₀ id := by
    obtain ⟨fid, f, l, hf, hl, -⟩ := hcomplete sid snap hsnap id hid
    obtain ⟨num, hmi⟩ := hset.reloaded
    refine ⟨(hset.described.live id).mpr ⟨sid, snap, hsnap, hid⟩, l, ?_⟩
    rw [hmi]
    exact Backend.mem_entries_reload.mpr ⟨fid, f, hf, hl⟩
  obtain ⟨fid, f, l, hf, hl⟩ := h.exists_entry hset.ground hwanted
  exact ⟨fid, f, l, hf, hl, (hb fid f hf _ hl).loadFromPack⟩

/-- **A stopped execution leaves no entry that dangles, and later backups stay complete**, if no
entry of the index lies in an unused pack, there is no leftover, and an index file whose deletion
failed has no entry in an obsolete pack. -/
theorem stopped_execution_stays_consistent [DecidableEq κ] (hb : b₀.Consistent env plain)
    {num₀ : b₀.Instances} (hmi : mi₀ = b₀.reloadMasterIndex env.toIndexEnv num₀)
    (hscan : Scan env codec limits b₀ mi₀ plan)
    (hunused : ∀ fid f, b₀.index.lookup fid = some f → ∀ e ∈ f.entries,
      ¬ b₀.Unused env.toIndexEnv codec plain mi₀ e.2.packId)
    (hleft : ¬ b₀.Leftover env.toIndexEnv codec plain limits mi₀) {ls : List (GcEvent κ)}
    (hls : ∀ l ∈ ls, l.Spares b₀ { f | ∀ e ∈ f.entries,
      ¬ b₀.Obsolete codec plain limits mi₀ e.2.packId })
    (hrun : Run (Step env config plan) (start b₀ mi₀) ls s) :
    s.backend.NoDangling ∧
      (b₀.SnapshotsComplete env codec plain → ∀ (ι ρ : Type) (workers : ι → Nat) [DecidableEq ι]
        [DecidableEq ρ] (c₀ c : SnapshotSystem ι ρ workers) (es : List (ι × ClientEvent ρ)),
        c₀.backend = s.backend → (∀ i, c₀.clients i = .resolving) → (∀ l ∈ es, l.2.Honest env plain) →
        Run (SnapshotSystem.Step env codec) c₀ es c → c.backend.SnapshotsComplete env codec
          plain) := by
  have hset := setting_of_scan hb hmi hscan
  have hinv := inv_run hset.ground hrun hls
  have hconsistent : s.backend.Consistent env plain := by
    refine hinv.consistent hset (fun fid f hf e he hp => ?_) (fun f hf e he hp => ?_) ?_
    · exact hunused fid f hf e he ((hset.described.unused _).mp hp)
    · exact hf e he ((hset.described.obsolete _).mp hp)
    · rw [leftover_iff hset]
      exact hleft
  refine ⟨hconsistent.noDangling, ?_⟩
  intro hcomplete ι ρ workers _ _ c₀ c es hback hstart hes hbackup
  have hcomplete' := hinv.snapshotsComplete hset hconsistent hcomplete
  rw [← hback] at hconsistent hcomplete'
  exact (SnapshotSystem.inv_run hconsistent hcomplete' hstart hes hbackup).complete

/-- The snapshot of `orphanBackend` has its tree and the blob of its file. -/
theorem complete_orphanBackend : orphanBackend.SnapshotsComplete sampleEnv gcCodec samplePlain := by
  intro sid snap hsnap id hid
  rcases eq_of_live rfl ⟨sid, snap, hsnap, hid⟩ with rfl | rfl
  · exact ⟨31, _, ⟨20, 0, 2, 1, .tree⟩, rfl, by decide, rfl⟩
  · exact ⟨31, _, ⟨20, 2, 2, 1, .data⟩, rfl, by decide, rfl⟩

/-- The collection with the orphan pack leaves no entry that dangles, and the snapshot complete. -/
theorem orphan_collection_stays_consistent : ∃ s : Gc Unit 1, s.phase = .finished ∧
    s.backend.NoDangling ∧ s.backend.SnapshotsComplete sampleEnv gcCodec samplePlain := by
  obtain ⟨ls, s, hrun, hls, hfinished⟩ := exists_run_orphan
  obtain ⟨hdangling, hbackups⟩ := stopped_execution_stays_consistent scan_orphanBackend.1 rfl
    scan_orphanBackend.2 (fun fid f hf e he => not_unused_orphan hf he) not_leftover_orphan
    (fun l hl => spares_of_not_fails (hls l hl)) hrun
  refine ⟨s, hfinished, hdangling, ?_⟩
  exact hbackups complete_orphanBackend Unit Unit (fun _ => 1) (solo s.backend .resolving) _ [] rfl
    (fun _ => rfl) (fun _ hl => by cases hl) .nil

/-- **An interrupted collection may leave an entry that dangles.** The pack with the second copy of
the tree is deleted, and the shutdown signal is seen at the checkpoint: the index file still has the
copy. -/
theorem interrupted_execution_dangles : ∃ ls, ∃ s : Gc Unit 1,
    duplicateBackend.Consistent sampleEnv samplePlain ∧
    Scan sampleEnv gcCodec gcLimits duplicateBackend (gcIndex duplicateBackend)
      (gcPlan duplicateBackend) ∧
    Run (Step sampleEnv gcConfig (gcPlan duplicateBackend))
      (start duplicateBackend (gcIndex duplicateBackend)) ls s ∧
    s.phase = .failed ∅ ∧ ¬ s.backend.NoDangling := by
  have h₀ : Run (Step sampleEnv gcConfig (gcPlan duplicateBackend))
      (start duplicateBackend (gcIndex duplicateBackend) : Gc Unit 1) [] _ := .nil
  have h₁ := h₀.snoc (.tidy rfl)
  have h₂ := h₁.snoc (.deleteUnused (p := 21) rfl (by decide))
  have h₃ := h₂.snoc (.interrupt (congrArg GcPhase.deletingUnused (by decide)))
  refine ⟨_, _, scan_duplicateBackend.1, scan_duplicateBackend.2, h₃, rfl, fun h => ?_⟩
  obtain ⟨data, hdata⟩ := h 30 _ rfl (1, ⟨21, 0, 2, 1, .tree⟩) (by decide)
  cases hdata

end Gc

end Mapache
