import Mathlib.Algebra.Order.BigOperators.Group.List
import Mathlib.Tactic.Linarith
import Mathlib.Tactic.Positivity
import Mapache.Repository.Dedup
import Mapache.Repository.GcSafety

/-!
# Cleaning without repacking

The choice of the tolerance in `run_with_repo` of `commands/cmd_clean.rs`. Without repacking nothing
but the tolerance is different, so small packs are merged all the same. When there is at most one
small pack and no pack has more garbage than the tolerance allows, nothing is written and only
unused packs are deleted (`clean_without_repack`).
-/

set_option autoImplicit false

namespace Mapache

open Lib

/-- The tolerance that `run_with_repo` hands to `scan`. -/
def cleanTolerance (noRepack : Bool) (tolerance : ℚ) : ℚ :=
  if noRepack then 100 else max 0 (min tolerance 100) / 100

/-- The comparisons of `scan`. Ratios are exact here. -/
def scanLimits (packSize : Nat) (minPackSizeFactor tolerance : ℚ) : GcLimits where
  exceedsTolerance := fun garbage => decide (tolerance < garbage / packSize)
  isSmall := fun size => decide ((size : ℚ) / packSize < minPackSizeFactor)

namespace Gc

variable {κ : Type} {n : Nat} {env : Env} {config : GcConfig} {plan : Plan} {b₀ b : Backend}
  {s s' : Gc κ n} {l : GcEvent κ}

/-- The threads of the pack saver have ended, or were never started. -/
structure NoThreads (pipe : Pipe κ n) : Prop where
  saver : ∃ ok, pipe.saver = .finished ok
  workers : ∀ w, pipe.workers w = .exited

/-- What an execution without packs to repack has done to the packs. -/
def Removes (plan : Plan) (b₀ b : Backend) : Prop :=
  ∀ p, b.packs.lookup p = b₀.packs.lookup p ∨
    (b.packs.lookup p = none ∧ p ∈ plan.unusedPacks)

/-- Where an execution without packs to repack can stand. -/
def Idles (plan : Plan) (pipe : Pipe κ n) : GcPhase → Prop
  | .deletingUnused todo | .failed todo => todo ⊆ plan.unusedPacks
  | .repacking _ _ => False
  | .flushing => NoThreads pipe
  | .aborted loaded => loaded = [] ∧ NoThreads pipe
  | .deletingObsolete todo => todo = ∅
  | _ => True

/-- What holds of an execution without packs to repack. -/
structure OnlyRemoves (plan : Plan) (b₀ : Backend) (s : Gc κ n) : Prop where
  packs : Removes plan b₀ s.backend
  phase : Idles plan s.pipe s.phase

theorem Removes.deletePack {p : ID} (h : Removes plan b₀ b) (hp : p ∈ plan.unusedPacks) :
    Removes plan b₀ (b.deletePack p) := by
  intro q
  rw [Backend.lookup_deletePack]
  split
  · rename_i heq
    exact Or.inr ⟨rfl, heq ▸ hp⟩
  · exact h q

theorem Removes.of_packs {b' : Backend} (h : Removes plan b₀ b) (heq : b'.packs = b.packs) :
    Removes plan b₀ b' := by
  intro p
  rw [heq]
  exact h p

/-- Threads that have ended do nothing. -/
theorem NoThreads.no_saver {pipe pipe' : Pipe κ n} (h : NoThreads pipe) :
    ¬ Pipe.SaverStep env pipe pipe' := by
  obtain ⟨ok, hsaver⟩ := h.saver
  intro hstep
  cases hstep <;> simp_all [SaverPhase.isDispatching]

theorem NoThreads.no_worker {pipe pipe' : Pipe κ n} {b' : Backend} {e : PipeEvent κ}
    (h : NoThreads pipe) : ¬ Pipe.WorkerStep env b pipe e b' pipe' := by
  intro hstep
  cases hstep <;> simp_all [h.workers]

theorem NoThreads.flush {pipe pipe' : Pipe κ n} {b' : Backend} {e : PipeEvent κ} (h : NoThreads pipe)
    (hstep : Pipe.FlushStep b pipe e b' pipe') : NoThreads pipe' ∧ b'.packs = b.packs := by
  cases hstep with
  | persistFail hphase hfailed =>
    refine ⟨⟨h.saver, h.workers⟩, ?_⟩
    rcases hfailed with rfl | ⟨-, rfl⟩ <;> rfl
  | _ => exact ⟨⟨h.saver, h.workers⟩, rfl⟩

theorem NoThreads.call [DecidableEq κ] {pipe pipe' : Pipe κ n} {e : PipeEvent κ} (h : NoThreads pipe)
    (hstep : Pipe.CallStep env pipe e pipe') : NoThreads pipe' := by
  cases hstep <;> exact ⟨h.saver, h.workers⟩

theorem OnlyRemoves.idles {phase : GcPhase} (h : s.OnlyRemoves plan b₀) (hphase : s.phase = phase) :
    Idles plan s.pipe phase := hphase ▸ h.phase

/-- The threads of the pack saver do not run. -/
theorem OnlyRemoves.noThreads (h : s.OnlyRemoves plan b₀) (hphase : s.phase.packing = true) :
    NoThreads s.pipe := by
  have hidles := h.phase
  cases hs : s.phase with
  | flushing =>
    rw [hs] at hidles
    exact hidles
  | aborted loaded =>
    rw [hs] at hidles
    exact hidles.2
  | repacking chunks loaded =>
    rw [hs] at hidles
    exact hidles.elim
  | _ =>
    rw [hs] at hphase
    cases hphase

/-- **A step without packs to repack** removes unused packs only. -/
theorem OnlyRemoves.step [DecidableEq κ] (hnone : plan.packsToRepack = ∅) (h : s.OnlyRemoves plan b₀)
    (hstep : Step env config plan s l s') : s'.OnlyRemoves plan b₀ := by
  cases hstep with
  | tidy hphase => exact ⟨h.packs, Finset.Subset.refl _⟩
  | tidyFail | interrupt => exact ⟨h.packs, Finset.empty_subset _⟩
  | deleteUnused hphase hp | deleteLate hphase hp =>
    exact ⟨h.packs.deletePack (h.idles hphase hp), (Finset.erase_subset _ _).trans (h.idles hphase)⟩
  | deleteUnusedFail hphase hp hfailed =>
    refine ⟨?_, (Finset.erase_subset _ _).trans (h.idles hphase)⟩
    rcases hfailed with rfl | rfl
    · exact h.packs
    · exact h.packs.deletePack (h.idles hphase hp)
  | repack hphase hsome => exact absurd hnone hsome
  | cleanOnly hphase hrepack hunused => exact ⟨h.packs, ⟨true, rfl⟩, fun _ => rfl⟩
  | nothing | flushed | deleteIndex | done => exact ⟨h.packs, trivial⟩
  | load hphase hchunk hloads | repackFail hphase | save hphase hc hcall | caller hphase hcall
  | repacked hphase hidle => exact (h.idles hphase).elim
  | saveLate hphase hc hcall =>
    rw [(h.idles hphase).1] at hc
    cases hc
  | callerLate hphase hcall =>
    have hidles := h.idles hphase
    refine ⟨h.packs, ?_⟩
    rw [hphase]
    exact ⟨hidles.1, hidles.2.call hcall⟩
  | saver hpacking hsaver => exact absurd hsaver (h.noThreads hpacking).no_saver
  | worker hpacking hworker => exact absurd hworker (h.noThreads hpacking).no_worker
  | flush hphase hflush =>
    obtain ⟨hthreads, hsame⟩ := NoThreads.flush (h.idles hphase) hflush
    refine ⟨h.packs.of_packs hsame, ?_⟩
    rw [hphase]
    exact hthreads
  | flushFail hphase hfinished => exact ⟨h.packs, rfl, h.idles hphase⟩
  | deleteIndexFail hphase hfid hfailed =>
    refine ⟨?_, trivial⟩
    rcases hfailed with rfl | rfl
    · exact h.packs
    · exact h.packs
  | indicesDeleted hphase => exact ⟨h.packs, hnone⟩
  | deleteObsolete hphase hp | deleteObsoleteFail hphase hp hfailed =>
    rw [h.idles hphase] at hp
    exact absurd hp (Finset.notMem_empty _)

theorem OnlyRemoves.start (mi : MasterIndex) : (start b₀ mi : Gc κ n).OnlyRemoves plan b₀ :=
  ⟨fun _ => Or.inl rfl, trivial⟩

end Gc

section Clean

variable {κ : Type} {n : Nat} [DecidableEq κ] {env : Env} {codec : TreeCodec} {config : GcConfig}
  {plan : Plan} {b : Backend} {mi : MasterIndex}

/-- **Cleaning without repacking removes unused packs only**, when no pack has more garbage than a
hundred pack sizes and at most one pack is small. However the run goes and wherever it ends, every
pack file is as it was, or it is gone and the index found no live blob in it. -/
theorem clean_without_repack {packSize : Nat} {minPackSizeFactor tolerance : ℚ} {ls : List (GcEvent κ)}
    {s : Gc κ n}
    (hscan : Scan env codec (scanLimits packSize minPackSizeFactor (cleanTolerance true tolerance))
    b mi
      plan)
    (hgarbage : ∀ p, ((sizeIn (b.garbage codec (Mark.contents env b mi) mi) p : ℚ) / packSize) ≤ 100)
    (hsmall : ∀ p q, (∃ e ∈ mi.entries, e.2.packId = p) → (∃ e ∈ mi.entries, e.2.packId = q) →
      (sizeIn mi.entries p : ℚ) / packSize < minPackSizeFactor →
      (sizeIn mi.entries q : ℚ) / packSize < minPackSizeFactor → p = q)
    (hrun : Run (Gc.Step env config plan) (Gc.start b mi) ls s) :
    ∀ p, s.backend.packs.lookup p = b.packs.lookup p ∨
      (s.backend.packs.lookup p = none ∧
        b.Unused env.toIndexEnv codec (Mark.contents env b mi) mi p) := by
  have hcontents : ∀ t bytes, loadBlob env b mi t = some bytes → bytes = Mark.contents env b mi t := by
    intro t bytes hbytes
    rw [Mark.contents, hbytes, Option.getD_some]
  have hplan := hscan.describes hcontents
  have hnone : plan.packsToRepack = ∅ := by
    rw [Finset.eq_empty_iff_forall_notMem]
    intro p hp
    rcases (hplan.obsolete p).mp hp with ⟨-, hdirty⟩ | ⟨⟨hexp, hsmallp⟩, q, hne, hexq, hsmallq⟩
    · simp only [scanLimits, cleanTolerance, if_true, decide_eq_true_eq] at hdirty
      exact absurd (hgarbage p) (not_le.mpr hdirty)
    · simp only [scanLimits, decide_eq_true_eq] at hsmallp hsmallq
      exact hne (hsmall q p hexq hexp hsmallq hsmallp)
  have hinv : s.OnlyRemoves plan b :=
    hrun.invariant (fun _ _ _ h hstep => h.step hnone hstep) (.start mi)
  intro p
  exact (hinv.packs p).imp_right (And.imp_right (hplan.unused p).mp)

end Clean

/-! ## Concrete collections -/

section Runs

open Gc

/-- Packs are closed after their first blob. -/
def tinyPackEnv : Env := { sampleEnv with maxPackerSize := 2 }

/-- The plan of a cleaning without repacking, with packs of 100 bytes. -/
def noRepackPlan (minPackSizeFactor : ℚ) (b : Backend) : Plan :=
  (gcMark b).plan (scanLimits 100 minPackSizeFactor (cleanTolerance true 5)) b (gcIndex b)

theorem scan_noRepackPlan {b : Backend} {env : Env} (minPackSizeFactor : ℚ)
    (hsnap : b.snapshots = AList.insert 50 ⟨1⟩ ∅) (henv : env.toIndexEnv = sampleEnv.toIndexEnv)
    (hload : loadBlob env b (gcIndex b) 1 = some [1]) :
    Scan env gcCodec (scanLimits 100 minPackSizeFactor (cleanTolerance true 5)) b (gcIndex b)
      (noRepackPlan minPackSizeFactor b) := scan_gcMark _ hsnap henv hload

/-- One pack with the tree and one with the blob of its file, both small. -/
def smallPacksBackend : Backend :=
  gcBackend (AList.insert 20 [1, 1] (AList.insert 21 [1, 5] ∅))
    (AList.insert 30 ⟨[⟨20, [⟨1, .tree, 0, 2, 1⟩]⟩, ⟨21, [⟨5, .data, 0, 2, 1⟩]⟩]⟩ ∅)

def smallPacksPlan : Plan where
  totalPacks := 2
  referencedBlobs := {1, 5}
  referencedPacks := {20, 21}
  obsoletePacks := ∅
  smallPacks := {20, 21}
  toleratedPacks := ∅
  unusedPacks := ∅
  indexIds := {30}

theorem noRepackPlan_smallPacks : noRepackPlan (1 / 2) smallPacksBackend = smallPacksPlan := by
  rw [smallPacksPlan, noRepackPlan, Mark.plan, Plan.mk.injEq]
  decide +kernel

/-- The tree is stored in a new pack. -/
theorem exists_run_smallPacks : ∃ ls, ∃ s : Gc Unit 1,
    Run (Step tinyPackEnv gcConfig smallPacksPlan)
      (start smallPacksBackend (gcIndex smallPacksBackend)) ls s ∧
    smallPacksBackend.packs.lookup 1 = none ∧ (s.backend.packs.lookup 1).isSome = true := by
  have h₀ : Run (Step tinyPackEnv gcConfig smallPacksPlan)
      (start smallPacksBackend (gcIndex smallPacksBackend) : Gc Unit 1) [] _ := .nil
  have h₁ := h₀.snoc (.tidy rfl)
  have h₂ := h₁.snoc (.repack rfl (by decide))
  have h₃ := h₂.snoc (.load rfl List.mem_cons_self ⟨_, .refl _, rfl⟩)
  -- the tree is saved again
  have h₄ := h₃.snoc (.save (c := ⟨1, .tree, [1]⟩) rfl (by decide +kernel)
    (.call (k := ()) .tree [1] (.withID 1) rfl))
  have c₁ := h₄.snoc (.caller rfl (.look (k := ())))
  have c₂ := c₁.snoc (.caller rfl (.look (k := ())))
  have c₃ := c₂.snoc (.caller rfl (.clone (k := ()) sampleNonce rfl rfl rfl))
  have c₄ := c₃.snoc (.caller rfl (.send (k := ()) rfl rfl))
  -- its pack is closed and uploaded
  have p₁ := c₄.snoc (.saver rfl (.start rfl))
  have p₂ := p₁.snoc (.saver rfl (.add rfl rfl rfl rfl))
  have p₃ := p₂.snoc (.saver rfl (.take rfl (by decide) rfl))
  have p₄ := p₃.snoc (.saver rfl (.send rfl))
  have w₁ := p₄.snoc (.worker rfl (.recv (w := 0) rfl rfl))
  have w₂ := w₁.snoc (.worker rfl (.finalize (w := 0) sampleNonce samplePadding rfl rfl rfl))
  have w₃ := w₂.snoc (.worker rfl (.upload (w := 0) rfl ⟨rfl, rfl, by decide⟩))
  exact ⟨_, _, w₃, rfl, rfl⟩

/-- **Cleaning without repacking writes packs, and deletes packs with live blobs.** Two small packs
are repacked all the same; and the second copy of the tree, in the pack 21, is deleted. -/
theorem no_repack_writes_and_deletes :
    (∃ plan ls, ∃ s : Gc Unit 1,
      Scan tinyPackEnv gcCodec (scanLimits 100 (1 / 2) (cleanTolerance true 5)) smallPacksBackend
        (gcIndex smallPacksBackend) plan ∧
      Run (Step tinyPackEnv gcConfig plan) (start smallPacksBackend (gcIndex smallPacksBackend)) ls s ∧
      smallPacksBackend.packs.lookup 1 = none ∧ (s.backend.packs.lookup 1).isSome = true) ∧
    ∃ plan ls, ∃ s : Gc Unit 1,
      Scan sampleEnv gcCodec (scanLimits 100 0 (cleanTolerance true 5)) duplicateBackend
        (gcIndex duplicateBackend) plan ∧
      Run (Step sampleEnv gcConfig plan) (start duplicateBackend (gcIndex duplicateBackend)) ls s ∧
      s.backend.packs.lookup 21 = none ∧ duplicateBackend.Live gcCodec samplePlain 1 ∧
      duplicateBackend.Holds sampleEnv samplePlain (1, ⟨21, 0, 2, 1, .tree⟩) := by
  constructor
  · obtain ⟨ls, s, hrun, hold, hnew⟩ := exists_run_smallPacks
    refine ⟨_, ls, s, scan_noRepackPlan (1 / 2) rfl rfl (by decide), ?_, hold, hnew⟩
    rw [noRepackPlan_smallPacks]
    exact hrun
  · have h₀ : Run (Step sampleEnv gcConfig (noRepackPlan 0 duplicateBackend))
        (start duplicateBackend (gcIndex duplicateBackend) : Gc Unit 1) [] _ := .nil
    have h₁ := h₀.snoc (.tidy rfl)
    have h₂ := h₁.snoc (.deleteUnused (p := 21) rfl (by decide +kernel))
    exact ⟨_, _, _, scan_noRepackPlan 0 rfl rfl (by decide), h₂, by decide, live_tree rfl,
      scan_duplicateBackend.1 30 _ rfl _ (by decide)⟩

theorem sizeIn_le (es : List (ID × BlobLocator)) (p : ID) :
    sizeIn es p ≤ (es.map fun e => e.2.length).sum :=
  (List.filter_sublist.map _).sum_le_sum fun _ _ => Nat.zero_le _

/-- The pack that is deleted is one that no index file knows. -/
theorem clean_without_repack_orphan : ∃ s : Gc Unit 1, s.backend.packs.lookup 22 = none ∧
    orphanBackend.Unused sampleEnv.toIndexEnv gcCodec
      (Mark.contents sampleEnv orphanBackend (gcIndex orphanBackend)) (gcIndex orphanBackend) 22 := by
  have h₀ : Run (Step sampleEnv gcConfig (noRepackPlan 0 orphanBackend))
      (start orphanBackend (gcIndex orphanBackend) : Gc Unit 1) [] _ := .nil
  have h₁ := h₀.snoc (.tidy rfl)
  have h₂ := h₁.snoc (.deleteUnused (p := 22) rfl (by decide +kernel))
  have hscan : Scan sampleEnv gcCodec (scanLimits 100 0 (cleanTolerance true 5)) orphanBackend
      (gcIndex orphanBackend) (noRepackPlan 0 orphanBackend) := scan_noRepackPlan 0 rfl rfl (by decide)
  have hgarbage : ∀ p, (sizeIn (orphanBackend.garbage gcCodec
      (Mark.contents sampleEnv orphanBackend (gcIndex orphanBackend)) (gcIndex orphanBackend)) p : ℚ) /
      (100 : Nat) ≤ 100 := by
    intro p
    have hsize := (sizeIn_le (orphanBackend.garbage gcCodec
      (Mark.contents sampleEnv orphanBackend (gcIndex orphanBackend)) (gcIndex orphanBackend)) p).trans
      (List.Sublist.sum_le_sum (List.filter_sublist.map _) fun _ _ => Nat.zero_le _)
    have hall : ((gcIndex orphanBackend).entries.map fun e => e.2.length).sum ≤ 4 := by decide
    rw [div_le_iff₀ (by norm_num)]
    exact_mod_cast (hsize.trans hall).trans (by norm_num)
  have hall := clean_without_repack hscan hgarbage
    (fun p q _ _ hp => absurd hp (not_lt.mpr (by positivity))) h₂
  rcases hall 22 with hsame | ⟨hgone, hunused⟩
  · cases hsame
  · exact ⟨_, hgone, hunused⟩

end Runs

end Mapache
