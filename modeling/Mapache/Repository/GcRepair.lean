import Mapache.Repository.GcSafety

/-!
# A collection after a stopped one

A garbage collection that was stopped may leave entries that point to packs that are gone. The next
one loads them with the other entries, and it drops those whose packs are unused or obsolete when it
writes the index anew. A pack that is gone is never unused, it is obsolete only for its garbage or
its size, and the obsolete packs are dropped only when there is something to repack. So the entries
that dangle may stay (`later_collection_leaves_dangling`). They go exactly when the index that is
written has none of them (`Backend.Repairable`), and then no entry dangles after the next collection
(`later_collection_repairs`).
-/

set_option autoImplicit false

namespace Mapache

open Lib

/-- The pack is there. -/
def Backend.HasPack (b : Backend) (p : ID) : Prop := ∃ data, b.packs.lookup p = some data

/-- The index that the plan writes has no entry in a pack that is gone, and none in a pack that will
be. -/
structure Plan.Repairs (env : IndexEnv) (b : Backend) (mi : MasterIndex) (plan : Plan) : Prop where
  /-- `repack` returns early, and the index stays as it is. -/
  early : plan.locatorsToRepack (plan.cleanIndex env mi) = [] →
    ∀ e ∈ (plan.cleanIndex env mi).entries, e.2.packId ∉ plan.packsToRepack ∧ b.HasPack e.2.packId
  moved : plan.locatorsToRepack (plan.cleanIndex env mi) ≠ [] →
    ∀ e ∈ ((plan.cleanIndex env mi).cleanup env (some plan.packsToRepack)).entries,
      b.HasPack e.2.packId

namespace Backend

variable (env : IndexEnv) (codec : TreeCodec) (plain : ID → Bytes) (limits : GcLimits) (b : Backend)
  (mi : MasterIndex)

/-- The index without its unused packs. It is only merged when there are some. -/
def withoutUnused (unused : Finset ID) : MasterIndex :=
  if unused = ∅ then mi else mi.cleanup env (some unused)

/-- The entries that dangle go with the next collection. The index without the unused packs has a
live blob in an obsolete pack, and without the obsolete packs it has no entry in a pack that is
gone. Or it has no live blob in an obsolete pack, and then it must have no entry there at all, and
none in a pack that is gone. -/
def Repairable : Prop :=
  ∃ unused obsolete : Finset ID, (∀ p, p ∈ unused ↔ b.Unused env codec plain mi p) ∧
    (∀ p, p ∈ obsolete ↔ b.Obsolete codec plain limits mi p) ∧
    (((∃ e ∈ (withoutUnused env mi unused).entries, b.Live codec plain e.1 ∧ e.2.packId ∈ obsolete) ∧
        ∀ e ∈ ((withoutUnused env mi unused).cleanup env (some obsolete)).entries,
          b.HasPack e.2.packId) ∨
      ((∀ e ∈ (withoutUnused env mi unused).entries, b.Live codec plain e.1 → e.2.packId ∉ obsolete) ∧
        ∀ e ∈ (withoutUnused env mi unused).entries, e.2.packId ∉ obsolete ∧ b.HasPack e.2.packId))

end Backend

namespace Gc

variable {κ : Type} {n : Nat} {env : Env} {codec : TreeCodec} {plain : ID → Bytes} {limits : GcLimits}
  {config : GcConfig} {b₀ b : Backend} {mi₀ mi : MasterIndex} {plan plan₀ : Plan}

/-- Nothing is repacked exactly when no live blob has an entry in a pack that is to go. -/
theorem locatorsToRepack_eq_nil_iff (hplan : plan.Describes env codec plain limits b mi) :
    plan.locatorsToRepack (plan.cleanIndex env.toIndexEnv mi) = [] ↔
      ∀ e ∈ (plan.cleanIndex env.toIndexEnv mi).entries, b.Live codec plain e.1 →
        e.2.packId ∉ plan.packsToRepack := by
  rw [Plan.locatorsToRepack, List.filter_eq_nil_iff]
  refine forall₂_congr fun e he => ?_
  rw [decide_eq_true_eq, hplan.live, not_and]

/-- The condition on the plan in terms of the repository. -/
theorem repairs_iff (hplan : plan.Describes env codec plain limits b mi) :
    plan.Repairs env.toIndexEnv b mi ↔ b.Repairable env.toIndexEnv codec plain limits mi := by
  have hnil := locatorsToRepack_eq_nil_iff hplan
  constructor
  · intro h
    refine ⟨plan.unusedPacks, plan.packsToRepack, hplan.unused, hplan.obsolete, ?_⟩
    by_cases hempty : plan.locatorsToRepack (plan.cleanIndex env.toIndexEnv mi) = []
    · exact Or.inr ⟨hnil.mp hempty, h.early hempty⟩
    · refine Or.inl ⟨?_, h.moved hempty⟩
      by_contra hno
      exact hempty (hnil.mpr fun e he hlive hobs => hno ⟨e, he, hlive, hobs⟩)
  · rintro ⟨unused, obsolete, hunused, hobsolete, h⟩
    obtain rfl : unused = plan.unusedPacks := Finset.ext fun p => by rw [hunused, hplan.unused]
    obtain rfl : obsolete = plan.packsToRepack := Finset.ext fun p => by rw [hobsolete, hplan.obsolete]
    rcases h with ⟨⟨e, he, hlive, hobs⟩, hthere⟩ | ⟨hnone, hthere⟩
    · exact ⟨fun hempty => absurd hobs (hnil.mp hempty e he hlive), fun _ => hthere⟩
    · exact ⟨fun _ => hthere, fun hne => absurd (hnil.mpr hnone) hne⟩

/-! ## What the first collection leaves -/

/-- A pack that is still there holds what it held, and the ID of one that is gone is not free. -/
theorem Kept.intact {lost : Finset ID} (h : Backend.Kept lost b₀ b) {e : ID × BlobLocator}
    (he : b₀.Holds env plain e) :
    (b.HasPack e.2.packId → b.Holds env plain e) ∧ ¬ b.Fresh e.2.packId := by
  obtain ⟨data, hdata, hslice⟩ := he
  have hknown : ¬ b₀.Fresh e.2.packId := fun hfresh => by
    rw [hfresh.1] at hdata
    cases hdata
  refine ⟨?_, fun hfresh => hknown (h.fresh _ hfresh)⟩
  rintro ⟨data', hdata'⟩
  have hold := (h.written _ data' hdata').resolve_right hknown
  rw [hdata] at hold
  cases hold
  exact ⟨data, hdata', hslice⟩

/-- At any time an entry whose pack is there points to its blob, and no entry points to a free ID.
-/
theorem Inv.intact {s : Gc κ n} {spared : Set IndexFile}
    (hset : GcSetting env codec plain limits b₀ mi₀ plan)
    (h : s.Inv env plain b₀ mi₀ plan spared) {fid : ID} {f : IndexFile}
    (hf : s.backend.index.lookup fid = some f) {e : ID × BlobLocator} (he : e ∈ f.entries) :
    (s.backend.HasPack e.2.packId → s.backend.Holds env plain e) ∧ ¬ s.backend.Fresh e.2.packId := by
  obtain ⟨lost, hkept⟩ := h.exists_kept
  rcases h.file_cases hf with hold | hnew
  · exact Kept.intact hkept (hset.consistent fid f hold.lookup e he)
  · obtain ⟨hadm, hobs | hholds⟩ := hnew e he
    · -- a leftover of the first collection is one of its old entries
      exact Kept.intact hkept (hset.holds (Plan.mem_cleanIndex (hadm.2 hobs).2.1).1)
    · refine ⟨fun _ => hholds, fun hfresh => ?_⟩
      obtain ⟨data, hdata, -⟩ := hholds
      rw [hfresh.1] at hdata
      cases hdata

/-! ## The second collection -/

/-- The files that a stopped collection leaves, with a plan that repairs them, are ground for the
next one. -/
theorem ground_of_repairs
    (hintact : ∀ fid f, b.index.lookup fid = some f → ∀ e ∈ f.entries,
      (b.HasPack e.2.packId → b.Holds env plain e) ∧ ¬ b.Fresh e.2.packId)
    {num : b.Instances} (hmi : mi = b.reloadMasterIndex env.toIndexEnv num)
    (hplan : plan.Describes env codec plain limits b mi) (hrep : plan.Repairs env.toIndexEnv b mi) :
    GcGround env codec plain limits b mi plan := by
  have hentries : ∀ e ∈ mi.entries,
      (b.HasPack e.2.packId → b.Holds env plain e) ∧ ¬ b.Fresh e.2.packId := by
    intro e he
    rw [hmi] at he
    obtain ⟨fid, f, hf, hmem⟩ := Backend.mem_entries_reload.mp he
    exact hintact fid f hf e hmem
  -- without obsolete packs nothing is repacked
  have hnil : plan.packsToRepack = ∅ → plan.locatorsToRepack (plan.cleanIndex env.toIndexEnv mi) =
      [] := by
    intro hobs
    rw [Plan.locatorsToRepack, hobs, List.filter_eq_nil_iff]
    simp
  refine ⟨fun e he => (hentries e he).1, fun e he => (hentries e he).2, ⟨num, hmi⟩, hplan, ?_, ?_⟩
  · unfold Plan.writtenIndex Plan.repackIndex
    split
    · rename_i hobs
      exact fun e he => (hrep.early (hnil hobs) e he).2
    · split
      · rename_i hempty
        exact fun e he => (hrep.early hempty e he).2
      · rename_i hne
        exact hrep.moved hne
  · intro hne
    unfold Plan.writtenIndex Plan.repackIndex
    split
    · rename_i hobs
      rw [Plan.cleanIndex, if_neg (hne.resolve_right fun hne => hne hobs)]
      exact MasterIndex.unsaved_cleanup _ _ _
    · rename_i hobs
      split
      · -- an obsolete pack has entries, which the merge of the index must have dropped
        rename_i hempty
        have hnone := hrep.early hempty
        obtain ⟨p, hp⟩ := Finset.nonempty_iff_ne_empty.mpr hobs
        obtain ⟨e, he, rfl⟩ := hplan.exists_entry hp
        rw [Plan.cleanIndex, if_neg]
        · exact MasterIndex.unsaved_cleanup _ _ _
        · intro hunused
          rw [Plan.cleanIndex, if_pos hunused] at hnone
          exact (hnone e he).1 hp
      · exact MasterIndex.unsaved_cleanup _ _ _

/-- An index file without entries in packs that are gone or will be. -/
def Sound (env : IndexEnv) (codec : TreeCodec) (plain : ID → Bytes) (limits : GcLimits) (b : Backend)
    (mi : MasterIndex) (f : IndexFile) : Prop :=
  ∀ e ∈ f.entries, b.HasPack e.2.packId ∧ ¬ b.Unused env codec plain mi e.2.packId ∧
    ¬ b.Obsolete codec plain limits mi e.2.packId

/-- A complete execution of a plan that repairs leaves no dangling entry, if the files that it fails
to delete have none. -/
theorem Inv.noDangling_of_repairs {s : Gc κ n} (hset : GcGround env codec plain limits b mi plan)
    (hrep : plan.Repairs env.toIndexEnv b mi)
    (h : s.Inv env plain b mi plan { f | Sound env.toIndexEnv codec plain limits b mi f })
    (hfinished : s.phase = .finished) : s.backend.NoDangling := by
  intro fid f hf e he
  rcases h.of_phase hfinished with ⟨hearly, hunused, hobs⟩ | ⟨hflushed, hfiles⟩
  · -- nothing was done, and the index as it was has no entry that dangles
    have hclean : plan.cleanIndex env.toIndexEnv mi = mi := if_pos hunused
    have hnil : plan.locatorsToRepack (plan.cleanIndex env.toIndexEnv mi) = [] := by
      rw [Plan.locatorsToRepack, hobs, List.filter_eq_nil_iff]
      simp
    have hthere := hrep.early hnil
    rw [hclean] at hthere
    have hmem : e ∈ mi.entries := by
      obtain ⟨num, hmi⟩ := hset.reloaded
      rw [hmi]
      exact Backend.mem_entries_reload.mpr ⟨fid, f, hearly.index ▸ hf, he⟩
    obtain ⟨data, hdata⟩ := (hthere e hmem).2
    refine ⟨data, hearly.kept.packs _ data hdata ?_⟩
    rw [hunused]
    exact Finset.notMem_empty _
  · rcases hfiles fid f hf with hfresh | ⟨hsound, -⟩
    · obtain ⟨hadm, hobs | ⟨data, hdata, -⟩⟩ := hflushed.admitted fid f hfresh hf e he
      · obtain ⟨hnil, hmem, -⟩ := hadm.2 hobs
        exact absurd hobs (hrep.early hnil e hmem).1
      · exact ⟨data, hdata⟩
    · obtain ⟨⟨data, hdata⟩, hunused, hobs⟩ := hsound e he
      refine ⟨data, hflushed.kept.packs _ data hdata fun hgone => ?_⟩
      rcases Finset.mem_union.mp hgone with hp | hp
      · exact hunused ((hset.described.unused _).mp hp)
      · exact hobs ((hset.described.obsolete _).mp hp)

section Stopped

variable [DecidableEq κ] {s₀ : Gc κ n} {ls₀ : List (GcEvent κ)}

/-- What a stopped execution leaves, with any failures. -/
theorem intact_of_run (hset₀ : GcSetting env codec plain limits b₀ mi₀ plan₀)
    (hrun₀ : Run (Step env config plan₀) (start b₀ mi₀) ls₀ s₀) (fid : ID) (f : IndexFile)
    (hf : s₀.backend.index.lookup fid = some f) (e : ID × BlobLocator) (he : e ∈ f.entries) :
    (s₀.backend.HasPack e.2.packId → s₀.backend.Holds env plain e) ∧
    ¬ s₀.backend.Fresh e.2.packId := by
  have hinv₀ : s₀.Inv env plain b₀ mi₀ plan₀ Set.univ :=
    inv_run hset₀.ground hrun₀ fun l _ => by cases l <;> simp [GcEvent.Spares]
  exact hinv₀.intact hset₀ hf he

/-- The scan after a stopped execution. -/
theorem describes_of_run (hset₀ : GcSetting env codec plain limits b₀ mi₀ plan₀)
    (hrun₀ : Run (Step env config plan₀) (start b₀ mi₀) ls₀ s₀) {num : s₀.backend.Instances}
    (hmi : mi = s₀.backend.reloadMasterIndex env.toIndexEnv num)
    (hscan : Scan env codec limits s₀.backend mi plan) :
    plan.Describes env codec plain limits s₀.backend mi := by
  refine hscan.describes fun t bytes hload => loadBlob_eq (fun e he hpack => ?_) hload
  rw [hmi] at he
  obtain ⟨fid, f, hf, hmem⟩ := Backend.mem_entries_reload.mp he
  exact (intact_of_run hset₀ hrun₀ fid f hf e hmem).1 hpack

/-- **The next collection repairs what a stopped one has left, if that is repairable.** The first
execution ends anywhere, with any failures; the second one completes, and the index files that it
fails to delete have no entry in a pack that is gone or goes. Then no entry dangles. -/
theorem later_collection_repairs {κ' : Type} [DecidableEq κ'] {n' : Nat}
    (hb : b₀.Consistent env plain) {num₀ : b₀.Instances}
    (hmi₀ : mi₀ = b₀.reloadMasterIndex env.toIndexEnv num₀)
    (hscan₀ : Scan env codec limits b₀ mi₀ plan₀)
    (hrun₀ : Run (Step env config plan₀) (start b₀ mi₀) ls₀ s₀)
    {num : s₀.backend.Instances} (hmi : mi = s₀.backend.reloadMasterIndex env.toIndexEnv num)
    (hscan : Scan env codec limits s₀.backend mi plan)
    (hrep : s₀.backend.Repairable env.toIndexEnv codec plain limits mi)
    {s : Gc κ' n'} {ls : List (GcEvent κ')}
    (hls : ∀ l ∈ ls, l.Spares s₀.backend
      { f | Sound env.toIndexEnv codec plain limits s₀.backend mi f })
    (hrun : Run (Step env config plan) (start s₀.backend mi) ls s) (hfinished : s.phase = .finished) :
    s.backend.NoDangling := by
  have hset₀ := setting_of_scan hb hmi₀ hscan₀
  have hplan := describes_of_run hset₀ hrun₀ hmi hscan
  have hrepairs := (repairs_iff hplan).mpr hrep
  have hground := ground_of_repairs (intact_of_run hset₀ hrun₀) hmi hplan hrepairs
  exact (inv_run hground hrun hls).noDangling_of_repairs hground hrepairs hfinished

end Stopped

/-- The pack 19 has a second copy of the tree, and the pack 22 is known to no index file. -/
def repairBackend : Backend :=
  gcBackend (AList.insert 19 [1, 1] (AList.insert 20 [1, 1, 1, 5] (AList.insert 22 [] ∅)))
    (AList.insert 30 ⟨[⟨19, [⟨1, .tree, 0, 2, 1⟩]⟩]⟩
      (AList.insert 31 ⟨[⟨20, [⟨1, .tree, 0, 2, 1⟩, ⟨5, .data, 2, 2, 1⟩]⟩]⟩ ∅))

theorem scan_repairBackend : repairBackend.Consistent sampleEnv samplePlain ∧
    Scan sampleEnv gcCodec gcLimits repairBackend (gcIndex repairBackend) (gcPlan repairBackend) :=
  ⟨consistent_of_slices (by decide), scan_gcBackend rfl (by decide)⟩

/-- The repository after the pack 19 is gone. -/
def stoppedBackend : Backend := repairBackend.deletePack 19

theorem scan_stoppedBackend :
    Scan sampleEnv gcCodec gcLimits stoppedBackend (gcIndex stoppedBackend) (gcPlan stoppedBackend) :=
  scan_gcBackend rfl (by decide)

/-- A collection of the repository is stopped after the deletion of the pack 19. -/
theorem exists_run_stopped : ∃ ls, ∃ s : Gc Unit 1,
    Run (Step sampleEnv gcConfig (gcPlan repairBackend))
      (start repairBackend (gcIndex repairBackend)) ls s ∧
    s.backend = stoppedBackend := by
  have h₀ : Run (Step sampleEnv gcConfig (gcPlan repairBackend))
      (start repairBackend (gcIndex repairBackend) : Gc Unit 1) [] _ := .nil
  have h₁ := h₀.snoc (.tidy rfl)
  have h₂ := h₁.snoc (.deleteUnused (p := 19) rfl (by decide))
  exact ⟨_, _, h₂, rfl⟩

/-- The next collection deletes the pack 22 and writes the index anew. -/
theorem exists_run_repair : ∃ ls, ∃ s : Gc Unit 1,
    Run (Step sampleEnv gcConfig (gcPlan stoppedBackend))
      (start stoppedBackend (gcIndex stoppedBackend)) ls
      s ∧ (∀ l ∈ ls, ¬ l.Fails) ∧ s.phase = .finished := by
  have h₀ : Run (Step sampleEnv gcConfig (gcPlan stoppedBackend))
      (start stoppedBackend (gcIndex stoppedBackend) : Gc Unit 1) [] _ := .nil
  have h₁ := h₀.snoc (.tidy rfl)
  have h₂ := h₁.snoc (.deleteUnused (p := 22) rfl (by decide))
  have h₃ := h₂.snoc (.cleanOnly (congrArg GcPhase.deletingUnused (by decide)) (by decide) (by decide))
  have f₁ := h₃.snoc (.flush rfl (.persist 40 rfl ⟨rfl, rfl, by decide⟩))
  have f₂ := f₁.snoc (.flush rfl (.mark rfl))
  have f₃ := f₂.snoc (.flush rfl (.done rfl))
  have f₄ := f₃.snoc (.flushed rfl rfl)
  have d₁ := f₄.snoc (.deleteIndex rfl (show (30 : ID) ∈ _ by decide))
  have d₂ := d₁.snoc (.deleteIndex rfl (show (31 : ID) ∈ _ by decide))
  have d₃ := d₂.snoc (.indicesDeleted (congrArg GcPhase.deletingIndices (by decide)))
  have d₄ := d₃.snoc (.done (congrArg GcPhase.deletingObsolete (by decide)))
  refine ⟨_, _, d₄, ?_, rfl⟩
  simp [GcEvent.Fails]

/-- The merge of the index keeps the other copy of the tree. -/
theorem repairs_stoppedBackend : (gcPlan stoppedBackend).Repairs sampleEnv.toIndexEnv stoppedBackend
    (gcIndex stoppedBackend) := by
  have hobs : (gcPlan stoppedBackend).packsToRepack = ∅ := by decide
  have hnil : (gcPlan stoppedBackend).locatorsToRepack
      ((gcPlan stoppedBackend).cleanIndex sampleEnv.toIndexEnv (gcIndex stoppedBackend)) = [] := by
    rw [Plan.locatorsToRepack, hobs, List.filter_eq_nil_iff]
    simp
  have hthere : ∀ e ∈ ((gcPlan stoppedBackend).cleanIndex sampleEnv.toIndexEnv
      (gcIndex stoppedBackend)).entries, (stoppedBackend.packs.lookup e.2.packId).isSome = true := by
    decide
  refine ⟨fun _ e he => ⟨?_, Option.isSome_iff_exists.mp (hthere e he)⟩, fun hne => absurd hnil hne⟩
  rw [hobs]
  exact Finset.notMem_empty _

theorem not_noDangling_stopped : ¬ stoppedBackend.NoDangling := by
  intro h
  obtain ⟨data, hdata⟩ := h 30 _ rfl (1, ⟨19, 0, 2, 1, .tree⟩) (by decide)
  cases hdata

/-- The first collection is stopped and leaves an entry that dangles, and the second one repairs it.
-/
theorem second_collection_repairs : ∃ s₀ s : Gc Unit 1, ¬ s₀.backend.NoDangling ∧
    s.phase = .finished ∧ s.backend.NoDangling := by
  obtain ⟨ls₀, s₀, hrun₀, hs₀⟩ := exists_run_stopped
  obtain ⟨ls, s, hrun, hls, hfinished⟩ := exists_run_repair
  have hset₀ : GcSetting sampleEnv gcCodec samplePlain gcLimits repairBackend (gcIndex repairBackend)
      (gcPlan repairBackend) := setting_of_scan scan_repairBackend.1 rfl scan_repairBackend.2
  have hscan := scan_stoppedBackend
  have hrepairs := repairs_stoppedBackend
  have hdangling := not_noDangling_stopped
  rw [← hs₀] at hscan hrepairs hrun hdangling
  have hmi : gcIndex s₀.backend =
      s₀.backend.reloadMasterIndex sampleEnv.toIndexEnv (plainInstances s₀.backend) := rfl
  have hrep := (repairs_iff (describes_of_run hset₀ hrun₀ hmi hscan)).mp hrepairs
  exact ⟨s₀, s, hdangling, hfinished, later_collection_repairs scan_repairBackend.1 rfl
    scan_repairBackend.2 hrun₀ hmi hscan hrep
      (fun l hl => spares_of_not_fails (hls l hl)) hrun hfinished⟩

/-- The repository with the copies after the pack 21 is gone. -/
def danglingBackend : Backend := duplicateBackend.deletePack 21

theorem exists_run_dangling : ∃ ls, ∃ s : Gc Unit 1,
    Run (Step sampleEnv gcConfig (gcPlan duplicateBackend))
      (start duplicateBackend (gcIndex duplicateBackend)) ls s ∧ s.backend = danglingBackend := by
  have h₀ : Run (Step sampleEnv gcConfig (gcPlan duplicateBackend))
      (start duplicateBackend (gcIndex duplicateBackend) : Gc Unit 1) [] _ := .nil
  have h₁ := h₀.snoc (.tidy rfl)
  have h₂ := h₁.snoc (.deleteUnused (p := 21) rfl (by decide))
  exact ⟨_, _, h₂, rfl⟩

theorem exists_run_nothing : ∃ ls, ∃ s : Gc Unit 1,
    Run (Step sampleEnv gcConfig (gcPlan danglingBackend))
      (start danglingBackend (gcIndex danglingBackend)) ls s ∧ (∀ l ∈ ls, ¬ l.Fails) ∧
    s.phase = .finished ∧ s.backend = danglingBackend := by
  have h₀ : Run (Step sampleEnv gcConfig (gcPlan danglingBackend))
      (start danglingBackend (gcIndex danglingBackend) : Gc Unit 1) [] _ := .nil
  have h₁ := h₀.snoc (.tidy rfl)
  have h₂ := h₁.snoc (.nothing (congrArg GcPhase.deletingUnused (by decide)) (by decide) (by decide))
  refine ⟨_, _, h₂, ?_, rfl, rfl⟩
  simp [GcEvent.Fails]

/-- **The next collection may leave what a stopped one has left.** The first collection deletes the
pack 21 with the second copy of the tree and is stopped. All live blobs are loaded as before, the
next collection finds nothing to do, and the entry in the pack 21 stays. -/
theorem later_collection_leaves_dangling : ∃ ls₀ ls, ∃ s₀ s : Gc Unit 1,
    duplicateBackend.Consistent sampleEnv samplePlain ∧
    Scan sampleEnv gcCodec gcLimits duplicateBackend (gcIndex duplicateBackend)
      (gcPlan duplicateBackend) ∧
    Run (Step sampleEnv gcConfig (gcPlan duplicateBackend))
      (start duplicateBackend (gcIndex duplicateBackend)) ls₀ s₀ ∧
    (∀ id, s₀.backend.Live gcCodec samplePlain id →
      loadBlob sampleEnv s₀.backend (gcIndex s₀.backend) id = some (samplePlain id)) ∧
    Scan sampleEnv gcCodec gcLimits s₀.backend (gcIndex s₀.backend) (gcPlan s₀.backend) ∧
    Run (Step sampleEnv gcConfig (gcPlan s₀.backend)) (start s₀.backend (gcIndex s₀.backend)) ls s ∧
    (∀ l ∈ ls, ¬ l.Fails) ∧ s.phase = .finished ∧ ¬ s.backend.NoDangling := by
  obtain ⟨ls₀, s₀, hrun₀, hs₀⟩ := exists_run_dangling
  obtain ⟨ls, s, hrun, hls, hfinished, hs⟩ := exists_run_nothing
  have hloads : ∀ id, danglingBackend.Live gcCodec samplePlain id →
      loadBlob sampleEnv danglingBackend (gcIndex danglingBackend) id = some (samplePlain id) := by
    intro id hid
    rcases eq_of_live rfl hid with rfl | rfl <;> decide
  have hscan : Scan sampleEnv gcCodec gcLimits danglingBackend (gcIndex danglingBackend)
      (gcPlan danglingBackend) := scan_gcBackend rfl (by decide)
  have hdangling : ¬ danglingBackend.NoDangling := by
    intro h
    obtain ⟨data, hdata⟩ := h 30 _ rfl (1, ⟨21, 0, 2, 1, .tree⟩) (by decide)
    cases hdata
  refine ⟨ls₀, ls, s₀, s, scan_duplicateBackend.1, scan_duplicateBackend.2, hrun₀, ?_⟩
  rw [hs₀, hs]
  exact ⟨hloads, hscan, hrun, hls, hfinished, hdangling⟩

end Gc

end Mapache
