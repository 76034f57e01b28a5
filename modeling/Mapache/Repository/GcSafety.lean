import Mapache.Repository.GcInvariant

/-!
# What a garbage collection may lose

The three guarantees of a garbage collection, each with the condition under which the code gives it.
A complete execution without failures keeps every live blob and leaves no dangling entry exactly
when there is no leftover (`complete_execution_keeps_live_iff`). An execution that is stopped
anywhere leaves every live blob where a lookup finds it, if no index file answers for a live blob
with an unused pack (`stopped_execution_resolves_live`), and it leaves the files consistent, if no
entry lies in an unused pack and there is no leftover (`Inv.consistent`).
-/

set_option autoImplicit false

namespace Mapache

open Lib

/-- The blob is read as it was before. -/
def StillLoads (env : Env) (b₀ : Backend) (mi₀ : MasterIndex) (b : Backend) (id : ID) : Prop :=
  ∀ num : b.Instances, ∃ bytes, loadBlob env b₀ mi₀ id = some bytes ∧
    loadBlob env b (b.reloadMasterIndex env.toIndexEnv num) id = some bytes

namespace Backend

/-- Every entry of every index file points to a pack that is there. -/
def NoDangling (b : Backend) : Prop :=
  ∀ fid f, b.index.lookup fid = some f → ∀ e ∈ f.entries, ∃ data, b.packs.lookup e.2.packId = some data

theorem Consistent.noDangling {env : Env} {plain : ID → Bytes} {b : Backend}
    (h : b.Consistent env plain) : b.NoDangling := by
  intro fid f hf e he
  obtain ⟨data, hdata, -⟩ := h fid f hf e he
  exact ⟨data, hdata⟩

variable (env : IndexEnv) (codec : TreeCodec) (plain : ID → Bytes) (limits : GcLimits) (b : Backend)
  (mi : MasterIndex)

/-- The index file looks for live blobs in packs that are not of the kind. -/
def LooksOutside (gone : ID → Prop) (f : IndexFile) : Prop :=
  ∀ id l, b.Live codec plain id → answer env f id = some l → ¬ gone l.packId

/-- Some packs are unused, and the index without them has entries in packs that are to go, but none
of a live blob. Then nothing is repacked and these entries stay. It takes blobs with several copies:
a merge of the index keeps one of them, and those of the live blobs that it keeps lie in other
packs. -/
def Leftover : Prop :=
  ∃ unused : Finset ID, unused.Nonempty ∧ (∀ p, p ∈ unused ↔ b.Unused env codec plain mi p) ∧
    (∀ e ∈ (mi.cleanup env (some unused)).entries,
      b.Obsolete codec plain limits mi e.2.packId → ¬ b.Live codec plain e.1) ∧
    ∃ e ∈ (mi.cleanup env (some unused)).entries, b.Obsolete codec plain limits mi e.2.packId

end Backend

namespace Gc

variable {κ : Type} {n : Nat} {env : Env} {codec : TreeCodec} {plain : ID → Bytes} {limits : GcLimits}
  {config : GcConfig} {b₀ : Backend} {mi₀ : MasterIndex} {plan : Plan} {spared : Set IndexFile}
  {s s' : Gc κ n}

theorem setting_of_scan (hb : b₀.Consistent env plain) {num₀ : b₀.Instances}
    (hmi : mi₀ = b₀.reloadMasterIndex env.toIndexEnv num₀)
    (hscan : Scan env codec limits b₀ mi₀ plan) :
    GcSetting env codec plain limits b₀ mi₀ plan := by
  subst hmi
  exact ⟨hb, ⟨num₀, rfl⟩, hscan.describes fun _ _ h => loadBlob_eq (fun e he _ =>
    hb.holds_reload e he) h⟩

/-- The leftover of the plan in terms of the repository. -/
theorem leftover_iff (hset : GcSetting env codec plain limits b₀ mi₀ plan) :
    plan.Leftover env.toIndexEnv mi₀ ↔ b₀.Leftover env.toIndexEnv codec plain limits mi₀ := by
  constructor
  · rintro ⟨hnil, e, he, hobs⟩
    have hne : plan.packsToRepack ≠ ∅ := Finset.ne_empty_of_mem hobs
    -- without unused packs there would be something to repack
    have hunused : plan.unusedPacks ≠ ∅ := fun hempty => hset.locators_ne_nil hempty hne hnil
    have hclean : plan.cleanIndex env.toIndexEnv mi₀ =
        mi₀.cleanup env.toIndexEnv (some plan.unusedPacks) := if_neg hunused
    refine ⟨plan.unusedPacks, Finset.nonempty_iff_ne_empty.mpr hunused, hset.described.unused, ?_, e,
      hclean ▸ he, (hset.described.obsolete _).mp hobs⟩
    intro e' he' hobs' hlive
    have hmem : e' ∈ plan.locatorsToRepack (plan.cleanIndex env.toIndexEnv mi₀) :=
      List.mem_filter.mpr ⟨hclean ▸ he',
        decide_eq_true ⟨(hset.described.live _).mpr hlive, (hset.described.obsolete _).mpr hobs'⟩⟩
    rw [hnil] at hmem
    cases hmem
  · rintro ⟨unused, hne, hunused, hnone, e, he, hobs⟩
    have heq : unused = plan.unusedPacks := by
      ext p
      rw [hunused, hset.described.unused]
    subst heq
    have hclean : plan.cleanIndex env.toIndexEnv mi₀ =
        mi₀.cleanup env.toIndexEnv (some plan.unusedPacks) :=
      if_neg (Finset.nonempty_iff_ne_empty.mp hne)
    refine ⟨?_, e, hclean ▸ he, (hset.described.obsolete _).mpr hobs⟩
    rw [hclean, Plan.locatorsToRepack, List.filter_eq_nil_iff]
    intro e' he' hmem
    obtain ⟨hlive, hobs'⟩ := of_decide_eq_true hmem
    exact hnone e' he' ((hset.described.obsolete _).mp hobs') ((hset.described.live _).mp hlive)

theorem wanted_of_live (hset : GcGround env codec plain limits b₀ mi₀ plan) {id : ID}
    (hlive : b₀.Live codec plain id) (hfound : (mi₀.get env.toIndexEnv id).isSome = true) :
    plan.Wanted mi₀ id := by
  obtain ⟨l, hget⟩ := Option.isSome_iff_exists.mp hfound
  exact ⟨(hset.described.live id).mpr hlive, l, MasterIndex.mem_of_get hget⟩

/-! ## The files at any time -/

section Files

variable {fid : ID} {f : IndexFile}

/-- The entry is one that a new index file may have: it points to a pack with the blob, or to one
that is to go. -/
def NewEntry (env : Env) (plain : ID → Bytes) (mi₀ : MasterIndex) (plan : Plan) (b : Backend)
    (e : ID × BlobLocator) : Prop :=
  e ∈ plan.Admitted env.toIndexEnv mi₀ ∧ (e.2.packId ∈ plan.packsToRepack ∨ b.Holds env plain e)

/-- An old index file, with the packs that may be gone while it is there. -/
inductive OldFile (b₀ : Backend) (plan : Plan) (spared : Set IndexFile) (b : Backend) (fid : ID)
    (f : IndexFile) : Prop where
  | unused : b₀.index.lookup fid = some f → Backend.Kept plan.unusedPacks b₀ b →
      OldFile b₀ plan spared b fid f
  /-- Its deletion has failed, and the obsolete packs were deleted. -/
  | spared : b₀.index.lookup fid = some f → f ∈ spared →
      Backend.Kept (plan.unusedPacks ∪ plan.packsToRepack) b₀ b → OldFile b₀ plan spared b fid f

theorem OldFile.lookup {b : Backend} (h : OldFile b₀ plan spared b fid f) :
    b₀.index.lookup fid = some f := by
  cases h with
  | unused hold => exact hold
  | spared hold => exact hold

/-- The phases in three stages: before the pipeline, while it runs, and after its flush. -/
theorem Inv.stages (h : s.Inv env plain b₀ mi₀ plan spared) :
    Early b₀ mi₀ plan s.backend s.pipe ∨ Running env plain b₀ mi₀ plan s.backend s.pipe ∨
      ∃ lost, Flushed env plain b₀ mi₀ plan lost s.backend ∧
        ∀ fid f, s.backend.index.lookup fid = some f →
          fid ∈ b₀.freshIds ∨ OldFile b₀ plan spared s.backend fid f := by
  unfold Inv at h
  cases hp : s.phase with
  | tidying =>
    rw [hp] at h
    exact Or.inl h
  | deletingUnused todo | failed todo =>
    rw [hp] at h
    exact Or.inl h.1
  | repacking chunks loaded | flushing | aborted loaded =>
    rw [hp] at h
    exact Or.inr (Or.inl h.1)
  | deletingIndices todo =>
    rw [hp] at h
    obtain ⟨hflushed, hfiles, -⟩ := h
    refine Or.inr (Or.inr ⟨_, hflushed, fun fid f hf => ?_⟩)
    exact (hfiles fid f hf).imp_right fun hold => .unused hold.2 hflushed.kept
  | deletingObsolete todo =>
    rw [hp] at h
    obtain ⟨hflushed, hfiles, -⟩ := h
    refine Or.inr (Or.inr ⟨_, hflushed, fun fid f hf => ?_⟩)
    exact (hfiles fid f hf).imp_right fun hold => .spared hold.2 hold.1 hflushed.kept
  | finished =>
    rw [hp] at h
    rcases h with ⟨hearly, -⟩ | ⟨hflushed, hfiles⟩
    · exact Or.inl hearly
    · refine Or.inr (Or.inr ⟨_, hflushed, fun fid f hf => ?_⟩)
      exact (hfiles fid f hf).imp_right fun hold => .spared hold.2 hold.1 hflushed.kept

/-- An index file is an old one or a new one. -/
theorem Inv.file_cases (h : s.Inv env plain b₀ mi₀ plan spared)
    (hf : s.backend.index.lookup fid = some f) :
    OldFile b₀ plan spared s.backend fid f ∨
      ∀ e ∈ f.entries, NewEntry env plain mi₀ plan s.backend e := by
  rcases h.stages with hearly | hrun | ⟨lost, hflushed, hfiles⟩
  · exact Or.inl (.unused (hearly.index ▸ hf) hearly.kept)
  · rcases hrun.files fid f hf with hold | hfresh
    · exact Or.inl (.unused hold hrun.kept)
    · exact Or.inr fun e he =>
        ⟨(hrun.sound fid f hfresh hf e he).1, Or.inr (hrun.sound fid f hfresh hf e he).2⟩
  · rcases hfiles fid f hf with hfresh | hold
    · exact Or.inr (hflushed.admitted fid f hfresh hf)
    · exact Or.inl hold

/-- An entry of an old file holds its blob, unless its pack may be gone. -/
theorem OldFile.holds {b : Backend} (h : OldFile b₀ plan spared b fid f) {e : ID × BlobLocator}
    (hholds : b₀.Holds env plain e)
    (hunused : e.2.packId ∉ plan.unusedPacks)
    (hspared : f ∈ spared → e.2.packId ∉ plan.packsToRepack) :
    b.Holds env plain e := by
  cases h with
  | unused hold hkept => exact hkept.holds hholds hunused
  | spared hold hmem hkept =>
    refine hkept.holds hholds fun hgone => ?_
    rcases Finset.mem_union.mp hgone with hp | hp
    · exact hunused hp
    · exact hspared hmem hp

/-- Files go, but nothing is written under their IDs. -/
theorem Inv.exists_kept (h : s.Inv env plain b₀ mi₀ plan spared) :
    ∃ lost, Backend.Kept lost b₀ s.backend := by
  rcases h.stages with hearly | hrun | ⟨lost, hflushed, -⟩
  · exact ⟨_, hearly.kept⟩
  · exact ⟨_, hrun.kept⟩
  · exact ⟨_, hflushed.kept⟩

/-- A wanted blob is in an index file. -/
theorem Inv.exists_entry (hset : GcGround env codec plain limits b₀ mi₀ plan)
    (h : s.Inv env plain b₀ mi₀ plan spared) {id : ID} (hid : plan.Wanted mi₀ id) :
    ∃ fid f l, s.backend.index.lookup fid = some f ∧ (id, l) ∈ f.entries := by
  -- it was in one before the collection
  have hold : ∃ fid f l, b₀.index.lookup fid = some f ∧ (id, l) ∈ f.entries := by
    obtain ⟨num, hmi⟩ := hset.reloaded
    obtain ⟨-, l, hl⟩ := hid
    rw [hmi] at hl
    obtain ⟨fid, f, hf, hmem⟩ := Backend.mem_entries_reload.mp hl
    exact ⟨fid, f, l, hf, hmem⟩
  rcases h.stages with hearly | hrun | ⟨lost, hflushed, -⟩
  · rw [hearly.index]
    exact hold
  · obtain ⟨fid, f, l, hf, hmem⟩ := hold
    exact ⟨fid, f, l, hrun.old fid f hf, hmem⟩
  · obtain ⟨fid, f, l, -, hf, hmem⟩ := hflushed.indexed id hid
    exact ⟨fid, f, l, hf, hmem⟩

/-- A lookup finds the wanted blob, and where depends on a file alone. -/
theorem Inv.exists_get (hset : GcGround env codec plain limits b₀ mi₀ plan)
    (h : s.Inv env plain b₀ mi₀ plan spared) {id : ID} (hid : plan.Wanted mi₀ id)
    (num : s.backend.Instances) :
    ∃ fid f l, s.backend.index.lookup fid = some f ∧ Backend.answer env.toIndexEnv f id = some l ∧
      (s.backend.reloadMasterIndex env.toIndexEnv num).get env.toIndexEnv id = some l := by
  obtain ⟨fid, f, l, hf, hmem⟩ := h.exists_entry hset hid
  have hsome : ((s.backend.reloadMasterIndex env.toIndexEnv num).get env.toIndexEnv id).isSome =
      true :=
    MasterIndex.get_isSome (Backend.mem_entries_reload.mpr ⟨fid, f, hf, hmem⟩)
  obtain ⟨l', hget⟩ := Option.isSome_iff_exists.mp hsome
  obtain ⟨fid', f', hf', hanswer⟩ := Backend.exists_answer_of_get hget
  exact ⟨fid', f', l', hf', hanswer, hget⟩

/-- A new entry of a wanted blob points to a pack with the blob. -/
theorem NewEntry.holds {id : ID} {l : BlobLocator} (h : NewEntry env plain mi₀ plan s.backend (id, l))
    (hid : plan.Wanted mi₀ id) : s.backend.Holds env plain (id, l) :=
  h.2.resolve_left fun hobs => (h.1.2 hobs).2.2 hid.1

/-- Without a leftover a new entry points to a pack with the blob. -/
theorem NewEntry.holds_of_not_leftover {e : ID × BlobLocator}
    (h : NewEntry env plain mi₀ plan s.backend e) (hleft : ¬ plan.Leftover env.toIndexEnv mi₀) :
    s.backend.Holds env plain e :=
  h.2.resolve_left fun hobs => hleft ⟨(h.1.2 hobs).1, e, (h.1.2 hobs).2.1, hobs⟩

end Files

/-! ## Repositories for the concrete runs -/

/-- A file with one blob. -/
def gcNode : Node := { name := "f", blobs := some [5] }

/-- The one tree is that with `gcNode`. -/
def gcCodec : TreeCodec := .single [gcNode] [1]

/-- No garbage is tolerated, and a pack with less than two bytes is small. -/
def gcLimits : GcLimits := ⟨fun size => decide (0 < size), fun size => decide (size < 2)⟩

def gcConfig : GcConfig := ⟨⟨0, 0⟩, 100⟩

/-- A repository with one snapshot, whose tree is the blob 1 with the one file `gcNode`. -/
def gcBackend (packs : Table ID Bytes) (index : Table ID IndexFile) : Backend :=
  ⟨packs, index, AList.insert 50 ⟨1⟩ ∅, ∅⟩

/-- The index files are numbered by their IDs. -/
def plainInstances (b : Backend) : b.Instances where
  inst := fun fid => fid.val
  next := 2 ^ 256
  inj := fun _ _ _ _ _ _ h => Fin.ext h
  lt := fun fid _ _ => fid.isLt

def gcIndex (b : Backend) : MasterIndex := b.reloadMasterIndex sampleEnv.toIndexEnv (plainInstances b)

/-- The mark phase at its end: the tree was visited and loaded. -/
def gcMark (b : Backend) : Mark :=
  [gcNode].foldl (Mark.visitNode sampleEnv.toIndexEnv (gcIndex b))
    { Mark.reference sampleEnv.toIndexEnv (gcIndex b) ⟨[], [1], {1}, ∅, ∅⟩ 1 with loading := [] }

def gcPlan (b : Backend) : Plan := (gcMark b).plan gcLimits b (gcIndex b)

section Sample

variable {b : Backend}

/-- The mark phase visits the tree of the only snapshot and loads it. -/
theorem scan_gcMark {env : Env} (limits : GcLimits) (hsnap : b.snapshots = AList.insert 50 ⟨1⟩ ∅)
    (henv : env.toIndexEnv = sampleEnv.toIndexEnv)
    (hload : loadBlob env b (gcIndex b) 1 = some [1]) :
    Scan env gcCodec limits b (gcIndex b) ((gcMark b).plan limits b (gcIndex b)) := by
  have hstart : Mark.start b = ⟨[1], [], ∅, ∅, ∅⟩ := by
    rw [Mark.start, hsnap]
    rfl
  have h₀ : Run (Mark.Step env gcCodec b (gcIndex b)) (Mark.start b) [] ⟨[1], [], ∅, ∅, ∅⟩ := by
    rw [hstart]
    exact .nil
  have h₁ := h₀.snoc (.visit (t := 1) (List.mem_singleton_self (1 : ID)) (Finset.notMem_empty _))
  have h₂ := h₁.snoc (.load (t := 1) List.mem_cons_self hload rfl)
  refine ⟨_, _, h₂, ⟨rfl, rfl⟩, ?_⟩
  rw [henv]
  rfl

theorem scan_gcBackend (hsnap : b.snapshots = AList.insert 50 ⟨1⟩ ∅)
    (hload : loadBlob sampleEnv b (gcIndex b) 1 = some [1]) :
    Scan sampleEnv gcCodec gcLimits b (gcIndex b) (gcPlan b) := scan_gcMark gcLimits hsnap rfl hload

theorem live_tree (hsnap : b.snapshots = AList.insert 50 ⟨1⟩ ∅) : b.Live gcCodec samplePlain 1 :=
  ⟨50, ⟨1⟩, by rw [hsnap]; rfl, .tree .root⟩

/-- The live blobs are the tree and the blob of its file. -/
theorem eq_of_live (hsnap : b.snapshots = AList.insert 50 ⟨1⟩ ∅) {id : ID}
    (h : b.Live gcCodec samplePlain id) : id = 1 ∨ id = 5 := by
  obtain ⟨sid, snap, hlook, hid⟩ := h
  have htree : snap = ⟨1⟩ := by
    rw [hsnap, Table.lookup_insert_eq_ite] at hlook
    split at hlook
    · exact (Option.some.inj hlook).symm
    · cases hlook
  subst htree
  have hnodes : ∀ node, NodeOf gcCodec samplePlain 1 node → node = gcNode := by
    rintro node ⟨nodes, hnodes, hmem⟩
    cases hnodes
    exact List.mem_singleton.mp hmem
  rcases hid.cases_root with rfl | ⟨node, ids, hnode, hids, hmem⟩ | ⟨node, sub, hnode, hsub, -⟩
  · exact Or.inl rfl
  · rw [hnodes node hnode] at hids
    cases hids
    exact Or.inr (List.mem_singleton.mp hmem)
  · rw [hnodes node hnode] at hsub
    cases hsub

/-- The entries of the concrete repositories have two bytes each, the header and the plaintext. -/
theorem consistent_of_slices
    (h : ∀ x ∈ Table.toList b.index, ∀ e ∈ x.2.entries, e.2.length = 2 ∧
      (b.packs.lookup e.2.packId).any (fun data => e.2.offset ≤ data.length ∧
        data.take e.2.offset ++ (1 :: samplePlain e.1) ++ data.drop (e.2.offset + 2) = data) = true) :
    b.Consistent sampleEnv samplePlain := by
  intro fid f hf e he
  obtain ⟨hlength, hany⟩ := h (fid, f) (Table.mem_toList.mpr hf) e he
  cases hdata : b.packs.lookup e.2.packId with
  | none =>
    rw [hdata] at hany
    cases hany
  | some data =>
    rw [hdata, Option.any_some, decide_eq_true_eq] at hany
    obtain ⟨hoffset, hslice⟩ := hany
    refine ⟨data, hdata, 1 :: samplePlain e.1, ⟨_, _, hslice.symm, ?_, ?_⟩, List.cons_ne_nil _ _,
      rfl⟩
    · rw [List.length_take]
      exact Nat.min_eq_left hoffset
    · exact hlength.symm

end Sample

/-- A pack with both live blobs, and a pack that no index file knows. -/
def orphanBackend : Backend :=
  gcBackend (AList.insert 20 [1, 1, 1, 5] (AList.insert 22 [] ∅))
    (AList.insert 31 ⟨[⟨20, [⟨1, .tree, 0, 2, 1⟩, ⟨5, .data, 2, 2, 1⟩]⟩]⟩ ∅)

theorem scan_orphanBackend : orphanBackend.Consistent sampleEnv samplePlain ∧
    Scan sampleEnv gcCodec gcLimits orphanBackend (gcIndex orphanBackend) (gcPlan orphanBackend) :=
  ⟨consistent_of_slices (by decide), scan_gcBackend rfl (by decide)⟩

theorem setting_orphanBackend : GcSetting sampleEnv gcCodec samplePlain gcLimits orphanBackend
    (gcIndex orphanBackend) (gcPlan orphanBackend) :=
  setting_of_scan scan_orphanBackend.1 rfl scan_orphanBackend.2

/-- The collection deletes the pack and writes the index anew. -/
theorem exists_run_orphan : ∃ ls, ∃ s : Gc Unit 1,
    Run (Step sampleEnv gcConfig (gcPlan orphanBackend))
      (start orphanBackend (gcIndex orphanBackend)) ls s ∧
    (∀ l ∈ ls, ¬ l.Fails) ∧ s.phase = .finished := by
  have h₀ : Run (Step sampleEnv gcConfig (gcPlan orphanBackend))
      (start orphanBackend (gcIndex orphanBackend) : Gc Unit 1) [] _ := .nil
  have h₁ := h₀.snoc (.tidy rfl)
  have h₂ := h₁.snoc (.deleteUnused (p := 22) rfl (by decide))
  have h₃ := h₂.snoc (.cleanOnly (congrArg GcPhase.deletingUnused (by decide)) (by decide) (by decide))
  have f₁ := h₃.snoc (.flush rfl (.persist 40 rfl ⟨rfl, rfl, by decide⟩))
  have f₂ := f₁.snoc (.flush rfl (.mark rfl))
  have f₃ := f₂.snoc (.flush rfl (.done rfl))
  have f₄ := f₃.snoc (.flushed rfl rfl)
  have d₁ := f₄.snoc (.deleteIndex rfl (show (31 : ID) ∈ _ by decide))
  have d₂ := d₁.snoc (.indicesDeleted (congrArg GcPhase.deletingIndices (by decide)))
  have d₃ := d₂.snoc (.done (congrArg GcPhase.deletingObsolete (by decide)))
  refine ⟨_, _, d₃, ?_, rfl⟩
  simp [GcEvent.Fails]

/-- No index file knows the unused pack. -/
theorem not_unused_orphan {fid : ID} {f : IndexFile} (hf : orphanBackend.index.lookup fid = some f)
    {e : ID × BlobLocator} (he : e ∈ f.entries) :
    ¬ orphanBackend.Unused sampleEnv.toIndexEnv gcCodec samplePlain (gcIndex orphanBackend)
      e.2.packId := by
  rw [← setting_orphanBackend.described.unused]
  have hall : ∀ x ∈ Table.toList orphanBackend.index, ∀ e ∈ x.2.entries,
      e.2.packId ∉ (gcPlan orphanBackend).unusedPacks := by decide
  exact hall (fid, f) (Table.mem_toList.mpr hf) e he

/-- Nothing is repacked, so there is no leftover. -/
theorem not_leftover_orphan :
    ¬ orphanBackend.Leftover sampleEnv.toIndexEnv gcCodec samplePlain gcLimits
    (gcIndex orphanBackend) := by
  rw [← leftover_iff setting_orphanBackend]
  rintro ⟨-, e, -, hobs⟩
  have hempty : (gcPlan orphanBackend).packsToRepack = ∅ := by decide
  rw [hempty] at hobs
  exact Finset.notMem_empty _ hobs

/-- Both live blobs lie in the pack 20. The pack 21 has a second copy of the tree, which no lookup
finds. -/
def duplicateBackend : Backend :=
  gcBackend (AList.insert 20 [1, 1, 1, 5] (AList.insert 21 [1, 1] ∅))
    (AList.insert 30 ⟨[⟨21, [⟨1, .tree, 0, 2, 1⟩]⟩]⟩
      (AList.insert 31 ⟨[⟨20, [⟨1, .tree, 0, 2, 1⟩, ⟨5, .data, 2, 2, 1⟩]⟩]⟩ ∅))

theorem scan_duplicateBackend : duplicateBackend.Consistent sampleEnv samplePlain ∧
    Scan sampleEnv gcCodec gcLimits duplicateBackend (gcIndex duplicateBackend)
      (gcPlan duplicateBackend) :=
  ⟨consistent_of_slices (by decide), scan_gcBackend rfl (by decide)⟩

/-! ## A stopped execution -/

theorem spares_of_not_fails {l : GcEvent κ} (h : ¬ l.Fails) : l.Spares b₀ spared := by
  cases l with
  | indexFail fid => exact absurd trivial h
  | _ => trivial

/-- Without an entry in an unused pack and without a leftover the files stay consistent. -/
theorem Inv.consistent (hset : GcSetting env codec plain limits b₀ mi₀ plan)
    (h : s.Inv env plain b₀ mi₀ plan spared)
    (hunused : ∀ fid f, b₀.index.lookup fid = some f → ∀ e ∈ f.entries, e.2.packId ∉ plan.unusedPacks)
    (hspared : ∀ f ∈ spared, ∀ e ∈ f.entries, e.2.packId ∉ plan.packsToRepack)
    (hleft : ¬ plan.Leftover env.toIndexEnv mi₀) : s.backend.Consistent env plain := by
  intro fid f hf e he
  rcases h.file_cases hf with hold | hnew
  · exact hold.holds (hset.consistent fid f hold.lookup e he) (hunused fid f hold.lookup e he)
      fun hmem => hspared f hmem e he
  · exact (hnew e he).holds_of_not_leftover hleft

/-- **A stopped execution leaves every live blob where a lookup finds it**, if no index file looks
for a live blob in an unused pack, and a file whose deletion failed does not look for one in an
obsolete pack. -/
theorem stopped_execution_resolves_live [DecidableEq κ] (hb : b₀.Consistent env plain)
    {num₀ : b₀.Instances} (hmi : mi₀ = b₀.reloadMasterIndex env.toIndexEnv num₀)
    (hscan : Scan env codec limits b₀ mi₀ plan)
    (hunused : ∀ fid f, b₀.index.lookup fid = some f →
      b₀.LooksOutside env.toIndexEnv codec plain (b₀.Unused env.toIndexEnv codec plain mi₀) f)
    {ls : List (GcEvent κ)}
    (hls : ∀ l ∈ ls, l.Spares b₀ { f | b₀.LooksOutside env.toIndexEnv codec plain
      (b₀.Obsolete codec plain limits mi₀) f })
    (hrun : Run (Step env config plan) (start b₀ mi₀) ls s) (num : s.backend.Instances) {id : ID}
    (hlive : b₀.Live codec plain id) (hfound : (mi₀.get env.toIndexEnv id).isSome = true) :
    ∃ l, (s.backend.reloadMasterIndex env.toIndexEnv num).get env.toIndexEnv id = some l ∧
      s.backend.Holds env plain (id, l) := by
  have hset := setting_of_scan hb hmi hscan
  have hinv := inv_run hset.ground hrun hls
  have hid := wanted_of_live hset.ground hlive hfound
  obtain ⟨fid, f, l, hf, hanswer, hget⟩ := hinv.exists_get hset.ground hid num
  have hmem := Backend.mem_of_answer hanswer
  refine ⟨l, hget, ?_⟩
  rcases hinv.file_cases hf with hold | hnew
  · -- the old files answer with packs that are still there
    refine hold.holds (hset.consistent fid f hold.lookup _ hmem) (fun hp => ?_) fun hspared hp => ?_
    · exact hunused fid f hold.lookup id l hlive hanswer ((hset.described.unused _).mp hp)
    · exact hspared id l hlive hanswer ((hset.described.obsolete _).mp hp)
  · exact (hnew _ hmem).holds hid

/-- At the end of the collection with the orphan pack the tree is found. -/
theorem orphan_collection_finds_tree : ∃ s : Gc Unit 1, s.phase = .finished ∧
    ∃ l, (s.backend.reloadMasterIndex sampleEnv.toIndexEnv (plainInstances s.backend)).get
        sampleEnv.toIndexEnv 1 = some l ∧ s.backend.Holds sampleEnv samplePlain (1, l) := by
  obtain ⟨ls, s, hrun, hls, hfinished⟩ := exists_run_orphan
  refine ⟨s, hfinished, ?_⟩
  refine stopped_execution_resolves_live scan_orphanBackend.1 rfl scan_orphanBackend.2
    (fun fid f hf id l _ hanswer => not_unused_orphan hf (Backend.mem_of_answer hanswer))
    (fun l hl => spares_of_not_fails (hls l hl)) hrun _ (live_tree rfl) (by decide)

/-- **A collection that is stopped may lose a live blob.** The second copy of the tree is deleted
with its pack, and the new index file has the ID 10. When the index file 31 is deleted before the
file 30, a lookup asks the file 30 first, which knows the copy that is gone. -/
theorem stopped_execution_loses_tree : ∃ ls, ∃ s : Gc Unit 1,
    duplicateBackend.Consistent sampleEnv samplePlain ∧
    Scan sampleEnv gcCodec gcLimits duplicateBackend (gcIndex duplicateBackend)
      (gcPlan duplicateBackend) ∧
    Run (Step sampleEnv gcConfig (gcPlan duplicateBackend))
      (start duplicateBackend (gcIndex duplicateBackend)) ls s ∧ (∀ l ∈ ls, ¬ l.Fails) ∧
    duplicateBackend.Live gcCodec samplePlain 1 ∧
    loadBlob sampleEnv duplicateBackend (gcIndex duplicateBackend) 1 = some (samplePlain 1) ∧
    ∃ l, (gcIndex s.backend).get sampleEnv.toIndexEnv 1 = some l ∧
      s.backend.packs.lookup l.packId = none := by
  have h₀ : Run (Step sampleEnv gcConfig (gcPlan duplicateBackend))
      (start duplicateBackend (gcIndex duplicateBackend) : Gc Unit 1) [] _ := .nil
  have h₁ := h₀.snoc (.tidy rfl)
  have h₂ := h₁.snoc (.deleteUnused (p := 21) rfl (by decide))
  have h₃ := h₂.snoc (.cleanOnly (congrArg GcPhase.deletingUnused (by decide)) (by decide) (by decide))
  have f₁ := h₃.snoc (.flush rfl (.persist 10 rfl ⟨rfl, rfl, by decide⟩))
  have f₂ := f₁.snoc (.flush rfl (.mark rfl))
  have f₃ := f₂.snoc (.flush rfl (.done rfl))
  have f₄ := f₃.snoc (.flushed rfl rfl)
  have d₁ := f₄.snoc (.deleteIndex rfl (show (31 : ID) ∈ _ by decide))
  refine ⟨_, _, scan_duplicateBackend.1, scan_duplicateBackend.2, d₁, ?_, (live_tree rfl), by decide,
    ⟨21, 0, 2, 1, .tree⟩, by decide, by decide⟩
  simp [GcEvent.Fails]

/-! ## A complete execution -/

/-- A new index file has the entry. -/
def Filed (b₀ : Backend) (e : ID × BlobLocator) (b : Backend) : Prop :=
  ∃ fid f, fid ∈ b₀.freshIds ∧ b.index.lookup fid = some f ∧ e ∈ f.entries

/-- The way of a leftover entry: nothing is repacked, so it gets from the index into a new file, and
then its pack goes. -/
def Stale (b₀ : Backend) (e : ID × BlobLocator) (s : Gc κ n) : Prop :=
  match s.phase with
  | .repacking chunks loaded => (chunks = [] ∧ loaded = []) ∧ s.pipe.Quiet ∧ e ∈ s.pipe.index.entries
  | .flushing => s.pipe.Quiet ∧ e ∈ s.pipe.index.entries
  | .deletingIndices _ => Filed b₀ e s.backend
  | .deletingObsolete todo => Filed b₀ e s.backend ∧
      (e.2.packId ∈ todo ∨ s.backend.packs.lookup e.2.packId = none)
  | .finished => Filed b₀ e s.backend ∧ s.backend.packs.lookup e.2.packId = none
  | _ => True

section Stale

variable {e : ID × BlobLocator} {b' : Backend} {pipe' : Pipe κ n}

theorem Stale.of_phase {phase : GcPhase} (h : s.Stale b₀ e) (hphase : s.phase = phase) :
    Stale b₀ e { s with phase := phase } := by
  rw [← hphase]
  exact h

/-- A step of the threads of the pack saver. -/
theorem Stale.packing (h : s.Stale b₀ e) (hphase : s.phase.packing = true)
    (hpipe : s.pipe.Quiet → pipe'.Quiet ∧ pipe'.index.entries = s.pipe.index.entries) :
    Stale b₀ e { s with backend := b', pipe := pipe' } := by
  unfold Stale at h ⊢
  dsimp only
  cases hp : s.phase with
  | repacking chunks loaded =>
    rw [hp] at h
    obtain ⟨hquiet, hentries⟩ := hpipe h.2.1
    exact ⟨h.1, hquiet, hentries ▸ h.2.2⟩
  | flushing =>
    rw [hp] at h
    obtain ⟨hquiet, hentries⟩ := hpipe h.1
    exact ⟨hquiet, hentries ▸ h.2⟩
  | aborted loaded => trivial
  | _ =>
    rw [hp] at hphase
    cases hphase

/-- Every step that does not fail keeps a leftover entry on its way. -/
theorem Stale.step [DecidableEq κ] {l : GcEvent κ} (hset : GcGround env codec plain limits b₀ mi₀ plan)
    (hnil : plan.locatorsToRepack (plan.cleanIndex env.toIndexEnv mi₀) = [])
    (he : e ∈ (plan.cleanIndex env.toIndexEnv mi₀).entries) (hobs : e.2.packId ∈ plan.packsToRepack)
    (hl : ¬ l.Fails) (hinv : s.Inv env plain b₀ mi₀ plan spared) (h : s.Stale b₀ e)
    (hstep : Step env config plan s l s') : s'.Stale b₀ e := by
  cases hstep with
  | tidy hp | tidyFail hp | deleteUnused hp hmem | deleteUnusedFail hp hmem hfail | deleteLate hp hmem
  | interrupt hp => trivial
  | repack hp hne =>
    obtain ⟨hearly, -⟩ := hinv.of_phase hp
    have hindex : s.pipe.index = mi₀ := by
      rw [hearly.init]
      rfl
    rw [hindex, hnil, Plan.repackIndex, if_pos hnil]
    exact ⟨⟨rfl, rfl⟩, .init _, he⟩
  | cleanOnly hp hempty | nothing hp hempty =>
    rw [hempty] at hobs
    exact absurd hobs (Finset.notMem_empty _)
  | load hp hchunk =>
    obtain ⟨⟨rfl, -⟩, -⟩ := h.of_phase hp
    cases hchunk
  | save hp hc =>
    obtain ⟨⟨-, rfl⟩, -⟩ := h.of_phase hp
    cases hc
  | @caller chunks loaded k p' hp hcall =>
    obtain ⟨hempty, hquiet, hmem⟩ := h.of_phase hp
    obtain ⟨hquiet', hindex⟩ := hquiet.callStep hcall
    by_cases herr : ((s.pipe.callers k).outcome (p'.callers k)).isErr = true
    · rw [if_pos herr]
      trivial
    · rw [if_neg herr]
      exact ⟨hempty, hquiet', hindex ▸ hmem⟩
  | callerLate hp hcall | saveLate hp hc hcall =>
    unfold Stale
    simp only [hp]
  | saver hp hsaver =>
    exact h.packing hp fun hquiet =>
      ⟨(hquiet.saverStep hsaver).1, congrArg MasterIndex.entries (hquiet.saverStep hsaver).2⟩
  | worker hp hworker =>
    exact h.packing hp fun hquiet =>
      ⟨(hquiet.workerStep hworker).1, congrArg MasterIndex.entries (hquiet.workerStep hworker).2⟩
  | repacked hp hidle => exact (h.of_phase hp).2
  | flush hp hflush => exact h.packing (by rw [hp]; rfl) fun hquiet => hquiet.flushStep hflush
  | flushed hp hflush =>
    obtain ⟨hrun, -⟩ := hinv.of_phase hp
    exact hrun.filed.exists_file hrun.inv.settled hflush (h.of_phase hp).2
  | @deleteIndex todo fid hp hmem =>
    -- the file with the entry is a new one
    obtain ⟨-, -, hsub⟩ := hinv.of_phase hp
    obtain ⟨fid', f, hF, hf, hmem'⟩ := h.of_phase hp
    refine ⟨fid', f, hF, ?_, hmem'⟩
    rw [Backend.lookup_deleteIndex, if_neg]
    · exact hf
    · rintro rfl
      exact not_fresh_of_mem_indexIds hset (hsub hmem) hF
  | indicesDeleted hp => exact ⟨h.of_phase hp, Or.inl hobs⟩
  | @deleteObsolete todo p hp hmem =>
    obtain ⟨hfiled, hpack⟩ := h.of_phase hp
    refine ⟨hfiled, ?_⟩
    dsimp only
    rw [Backend.lookup_deletePack]
    by_cases heq : e.2.packId = p
    · exact Or.inr (if_pos heq)
    · rw [if_neg heq]
      exact hpack.imp_left fun htodo => Finset.mem_erase.mpr ⟨heq, htodo⟩
  | done hp =>
    obtain ⟨hfiled, hpack⟩ := h.of_phase hp
    exact ⟨hfiled, hpack.resolve_left (Finset.notMem_empty _)⟩
  | repackFail | flushFail | deleteIndexFail | deleteObsoleteFail => exact absurd trivial hl

end Stale

/-- Without a leftover a complete execution leaves consistent files. -/
theorem Inv.consistent_of_finished (hset : GcSetting env codec plain limits b₀ mi₀ plan)
    (h : s.Inv env plain b₀ mi₀ plan ∅) (hfinished : s.phase = .finished)
    (hleft : ¬ plan.Leftover env.toIndexEnv mi₀) : s.backend.Consistent env plain := by
  intro fid f hf e he
  rcases h.of_phase hfinished with ⟨hearly, hunused, -⟩ | ⟨hflushed, hfiles⟩
  · -- there was nothing to do
    have hold : OldFile b₀ plan ∅ s.backend fid f := .unused (hearly.index ▸ hf) hearly.kept
    refine hold.holds (hset.consistent fid f hold.lookup e he) ?_ fun hmem => hmem.elim
    rw [hunused]
    exact Finset.notMem_empty _
  · rcases hfiles fid f hf with hfresh | ⟨hmem, -⟩
    · exact NewEntry.holds_of_not_leftover (hflushed.admitted fid f hfresh hf e he) hleft
    · exact hmem.elim

/-- In consistent files a wanted blob is read as before. -/
theorem Inv.stillLoads (hset : GcSetting env codec plain limits b₀ mi₀ plan)
    (h : s.Inv env plain b₀ mi₀ plan spared) (hb : s.backend.Consistent env plain) {id : ID}
    (hid : plan.Wanted mi₀ id) : StillLoads env b₀ mi₀ s.backend id := by
  intro num
  have hload : ∀ {b : Backend} {mi : MasterIndex} {l : BlobLocator},
      mi.get env.toIndexEnv id = some l → b.Holds env plain (id, l) →
        loadBlob env b mi id = some (plain id) := by
    intro b mi l hget hholds
    rw [loadBlob, hget]
    exact hholds.loadFromPack
  obtain ⟨l, hl⟩ := hid.2
  have hsome : (mi₀.get env.toIndexEnv id).isSome = true := MasterIndex.get_isSome hl
  obtain ⟨l₀, hget₀⟩ := Option.isSome_iff_exists.mp hsome
  obtain ⟨fid, f, l', hf, hanswer, hget⟩ := h.exists_get hset.ground hid num
  exact ⟨plain id, hload hget₀ (hset.holds (MasterIndex.mem_of_get hget₀)),
    hload hget (hb fid f hf _ (Backend.mem_of_answer hanswer))⟩

/-- A leftover entry points to nothing at the end of a complete execution. -/
theorem dangling_of_leftover [DecidableEq κ] (hset : GcSetting env codec plain limits b₀ mi₀ plan)
    (hleft : plan.Leftover env.toIndexEnv mi₀) {ls : List (GcEvent κ)} (hls : ∀ l ∈ ls, ¬ l.Fails)
    (hrun : Run (Step env config plan) (start b₀ mi₀) ls s) (hfinished : s.phase = .finished) :
    ¬ s.backend.NoDangling := by
  obtain ⟨hnil, e, he, hobs⟩ := hleft
  have hstart : (start b₀ mi₀ : Gc κ n).Inv env plain b₀ mi₀ plan ∅ ∧
      (start b₀ mi₀ : Gc κ n).Stale b₀ e := ⟨.start, trivial⟩
  have hboth : s.Inv env plain b₀ mi₀ plan ∅ ∧ s.Stale b₀ e :=
    hrun.invariant_of_labels (P := fun s => s.Inv env plain b₀ mi₀ plan ∅ ∧ s.Stale b₀ e)
      (fun _ _ _ hl h hstep => ⟨h.1.step hset.ground (spares_of_not_fails hl) hstep,
        h.2.step hset.ground hnil he hobs hl h.1 hstep⟩) hls hstart
  obtain ⟨⟨fid, f, -, hf, hmem⟩, hnone⟩ := hboth.2.of_phase hfinished
  intro hdangling
  obtain ⟨data, hdata⟩ := hdangling fid f hf e hmem
  rw [hnone] at hdata
  cases hdata

/-- **A complete execution without failures loses nothing exactly when there is no leftover**: every
live blob that the index found is read as before, and no entry dangles. -/
theorem complete_execution_keeps_live_iff [DecidableEq κ] (hb : b₀.Consistent env plain)
    {num₀ : b₀.Instances} (hmi : mi₀ = b₀.reloadMasterIndex env.toIndexEnv num₀)
    (hscan : Scan env codec limits b₀ mi₀ plan) {ls : List (GcEvent κ)} (hls : ∀ l ∈ ls, ¬ l.Fails)
    (hrun : Run (Step env config plan) (start b₀ mi₀) ls s) (hfinished : s.phase = .finished) :
    ((∀ id, b₀.Live codec plain id → (mi₀.get env.toIndexEnv id).isSome = true →
        StillLoads env b₀ mi₀ s.backend id) ∧ s.backend.NoDangling) ↔
      ¬ b₀.Leftover env.toIndexEnv codec plain limits mi₀ := by
  have hset := setting_of_scan hb hmi hscan
  rw [← leftover_iff hset]
  constructor
  · exact fun hkept hleft => dangling_of_leftover hset hleft hls hrun hfinished hkept.2
  · intro hleft
    have hinv : s.Inv env plain b₀ mi₀ plan ∅ :=
      inv_run hset.ground hrun fun l hl => spares_of_not_fails (hls l hl)
    have hconsistent := hinv.consistent_of_finished hset hfinished hleft
    exact ⟨fun id hlive hfound =>
      hinv.stillLoads hset hconsistent (wanted_of_live hset.ground hlive hfound),
      hconsistent.noDangling⟩

/-- The collection with the orphan pack loses nothing. -/
theorem orphan_collection_keeps_all : ∃ s : Gc Unit 1, s.phase = .finished ∧
    StillLoads sampleEnv orphanBackend (gcIndex orphanBackend) s.backend 1 ∧ s.backend.NoDangling := by
  obtain ⟨ls, s, hrun, hls, hfinished⟩ := exists_run_orphan
  obtain ⟨hlive, hdangling⟩ := (complete_execution_keeps_live_iff scan_orphanBackend.1 rfl
    scan_orphanBackend.2 hls hrun hfinished).mpr not_leftover_orphan
  exact ⟨s, hfinished, hlive 1 (live_tree rfl) (by decide), hdangling⟩

/-- The tree is found in the pack 20, beside garbage, and the pack 21 has a copy of it. A merge of
the index keeps the copy, so that nothing is left to repack in the pack 20. -/
def leftoverBackend : Backend :=
  gcBackend (AList.insert 20 [1, 1, 1, 6] (AList.insert 21 [1, 1, 1, 5] (AList.insert 22 [] ∅)))
    (AList.insert 30 ⟨[⟨21, [⟨1, .tree, 0, 2, 1⟩, ⟨5, .data, 2, 2, 1⟩]⟩]⟩
      (AList.insert 31 ⟨[⟨20, [⟨1, .tree, 0, 2, 1⟩, ⟨6, .data, 2, 2, 1⟩]⟩]⟩ ∅))

/-- **A complete collection may leave an entry that dangles.** The garbage of the pack 20 stays in
the index, and the pack is deleted. -/
theorem leftover_entry_dangles : ∃ ls, ∃ s : Gc Unit 1,
    leftoverBackend.Consistent sampleEnv samplePlain ∧
    Scan sampleEnv gcCodec gcLimits leftoverBackend (gcIndex leftoverBackend)
      (gcPlan leftoverBackend) ∧
    Run (Step sampleEnv gcConfig (gcPlan leftoverBackend))
      (start leftoverBackend (gcIndex leftoverBackend)) ls s ∧ (∀ l ∈ ls, ¬ l.Fails) ∧
    s.phase = .finished ∧ ¬ s.backend.NoDangling := by
  have h₀ : Run (Step sampleEnv gcConfig (gcPlan leftoverBackend))
      (start leftoverBackend (gcIndex leftoverBackend) : Gc Unit 1) [] _ := .nil
  have h₁ := h₀.snoc (.tidy rfl)
  have h₂ := h₁.snoc (.deleteUnused (p := 22) rfl (by decide))
  have h₃ := h₂.snoc (.repack (congrArg GcPhase.deletingUnused (by decide)) (by decide))
  have h₄ := h₃.snoc (.repacked (congrArg₂ GcPhase.repacking (by decide) rfl) fun _ => rfl)
  -- the pack saver has nothing to do
  have p₁ := h₄.snoc (.flush rfl (.take rfl))
  have p₂ := p₁.snoc (.saver rfl (.start rfl))
  have p₃ := p₂.snoc (.saver rfl (.close rfl rfl rfl fun _ => rfl))
  have p₄ := p₃.snoc (.saver rfl (.dispatchEmpty rfl rfl))
  have p₅ := p₄.snoc (.saver rfl (.dispatchEmpty rfl rfl))
  have p₆ := p₅.snoc (.worker rfl (.closed (w := 0) rfl rfl rfl))
  have p₇ := p₆.snoc (.saver rfl (.join rfl fun w => match w with | ⟨0, _⟩ => rfl))
  have f₁ := p₇.snoc (.flush rfl (.joinOk rfl rfl))
  have f₂ := f₁.snoc (.flush rfl (.persist 40 rfl ⟨rfl, rfl, by decide⟩))
  have f₃ := f₂.snoc (.flush rfl (.mark rfl))
  have f₄ := f₃.snoc (.flush rfl (.done rfl))
  have f₅ := f₄.snoc (.flushed rfl rfl)
  have d₁ := f₅.snoc (.deleteIndex rfl (show (30 : ID) ∈ _ by decide))
  have d₂ := d₁.snoc (.deleteIndex rfl (show (31 : ID) ∈ _ by decide))
  have d₃ := d₂.snoc (.indicesDeleted (congrArg GcPhase.deletingIndices (by decide)))
  have d₄ := d₃.snoc (.deleteObsolete (p := 20) rfl (by decide))
  have d₅ := d₄.snoc (.done (congrArg GcPhase.deletingObsolete (by decide)))
  refine ⟨_, _, consistent_of_slices (by decide), scan_gcBackend rfl (by decide), d₅, ?_, rfl,
    fun h => ?_⟩
  · simp [GcEvent.Fails]
  · obtain ⟨data, hdata⟩ := h 40 _ rfl (6, ⟨20, 2, 2, 1, .data⟩) (by decide)
    cases hdata

/-! ## Failed deletions -/

/-- **Failed deletions lose nothing when the files that stay look elsewhere.** An execution that
returns `Ok` leaves every live blob where a lookup finds it, if the index files whose deletion
failed do not look for a live blob in an unused or an obsolete pack. -/
theorem failed_deletions_keep_live [DecidableEq κ] (hb : b₀.Consistent env plain)
    {num₀ : b₀.Instances} (hmi : mi₀ = b₀.reloadMasterIndex env.toIndexEnv num₀)
    (hscan : Scan env codec limits b₀ mi₀ plan) {ls : List (GcEvent κ)}
    (hls : ∀ l ∈ ls, l.Spares b₀ { f | b₀.LooksOutside env.toIndexEnv codec plain
      (fun p => b₀.Unused env.toIndexEnv codec plain mi₀ p ∨ b₀.Obsolete codec plain limits mi₀ p) f })
    (hrun : Run (Step env config plan) (start b₀ mi₀) ls s) (hfinished : s.phase = .finished)
    (num : s.backend.Instances) {id : ID} (hlive : b₀.Live codec plain id)
    (hfound : (mi₀.get env.toIndexEnv id).isSome = true) :
    ∃ l, (s.backend.reloadMasterIndex env.toIndexEnv num).get env.toIndexEnv id = some l ∧
      s.backend.Holds env plain (id, l) := by
  have hset := setting_of_scan hb hmi hscan
  have hinv := inv_run hset.ground hrun hls
  have hid := wanted_of_live hset.ground hlive hfound
  obtain ⟨fid, f, l, hf, hanswer, hget⟩ := hinv.exists_get hset.ground hid num
  have hmem := Backend.mem_of_answer hanswer
  refine ⟨l, hget, ?_⟩
  rcases hinv.of_phase hfinished with ⟨hearly, hunused, -⟩ | ⟨hflushed, hfiles⟩
  · -- nothing was deleted
    have hold : b₀.index.lookup fid = some f := hearly.index ▸ hf
    refine hearly.kept.holds (hset.consistent fid f hold _ hmem) ?_
    rw [hunused]
    exact Finset.notMem_empty _
  · rcases hfiles fid f hf with hfresh | ⟨hspared, hold⟩
    · exact NewEntry.holds (hflushed.admitted fid f hfresh hf _ hmem) hid
    · -- the file stayed, and it looks outside the packs that are gone
      refine hflushed.kept.holds (hset.consistent fid f hold _ hmem) fun hgone => ?_
      refine hspared id l hlive hanswer ?_
      rcases Finset.mem_union.mp hgone with hp | hp
      · exact Or.inl ((hset.described.unused _).mp hp)
      · exact Or.inr ((hset.described.obsolete _).mp hp)

/-- The old index file of the collection with the orphan pack cannot be deleted, and the tree is
found. -/
theorem orphan_collection_with_failure : ∃ s : Gc Unit 1, s.phase = .finished ∧
    (∃ f, s.backend.index.lookup 31 = some f) ∧
    ∃ l, (s.backend.reloadMasterIndex sampleEnv.toIndexEnv (plainInstances s.backend)).get
        sampleEnv.toIndexEnv 1 = some l ∧ s.backend.Holds sampleEnv samplePlain (1, l) := by
  have h₀ : Run (Step sampleEnv gcConfig (gcPlan orphanBackend))
      (start orphanBackend (gcIndex orphanBackend) : Gc Unit 1) [] _ := .nil
  have h₁ := h₀.snoc (.tidy rfl)
  have h₂ := h₁.snoc (.deleteUnused (p := 22) rfl (by decide))
  have h₃ := h₂.snoc (.cleanOnly (congrArg GcPhase.deletingUnused (by decide)) (by decide) (by decide))
  have f₁ := h₃.snoc (.flush rfl (.persist 40 rfl ⟨rfl, rfl, by decide⟩))
  have f₂ := f₁.snoc (.flush rfl (.mark rfl))
  have f₃ := f₂.snoc (.flush rfl (.done rfl))
  have f₄ := f₃.snoc (.flushed rfl rfl)
  have d₁ := f₄.snoc (.deleteIndexFail rfl (show (31 : ID) ∈ _ by decide) (Or.inl rfl))
  have d₂ := d₁.snoc (.indicesDeleted (congrArg GcPhase.deletingIndices (by decide)))
  have d₃ := d₂.snoc (.done (congrArg GcPhase.deletingObsolete (by decide)))
  refine ⟨_, rfl, ⟨_, rfl⟩, failed_deletions_keep_live scan_orphanBackend.1 rfl scan_orphanBackend.2
    (fun l hl => ?_) d₃ rfl _ (live_tree rfl) (by decide)⟩
  -- the file stays, and it knows only the pack that is kept
  have hfile : ∀ f, orphanBackend.index.lookup 31 = some f →
      f ∈ { f | orphanBackend.LooksOutside sampleEnv.toIndexEnv gcCodec samplePlain (fun p =>
        orphanBackend.Unused sampleEnv.toIndexEnv gcCodec samplePlain (gcIndex orphanBackend) p ∨
          orphanBackend.Obsolete gcCodec samplePlain gcLimits (gcIndex orphanBackend) p) f } := by
    rintro f hf id l - hanswer (hunused | hobs)
    · exact not_unused_orphan hf (Backend.mem_of_answer hanswer) hunused
    · have hmem := (setting_orphanBackend.described.obsolete _).mpr hobs
      rw [show (gcPlan orphanBackend).packsToRepack = ∅ by decide] at hmem
      exact Finset.notMem_empty _ hmem
  simp only [List.nil_append, List.cons_append, List.mem_cons, List.not_mem_nil, or_false] at hl
  rcases hl with rfl | rfl | rfl | rfl | rfl | rfl | rfl | rfl | rfl | rfl
  case inr.inr.inr.inr.inr.inr.inr.inl => exact hfile
  all_goals trivial

/-- **An index file that cannot be deleted may lose a live blob.** The index file 30 with the second
copy of the tree stays, the new index file has the ID 10, and a lookup asks the file 30 first. -/
theorem failed_deletion_loses_tree : ∃ ls, ∃ s : Gc Unit 1,
    duplicateBackend.Consistent sampleEnv samplePlain ∧
    Scan sampleEnv gcCodec gcLimits duplicateBackend (gcIndex duplicateBackend)
      (gcPlan duplicateBackend) ∧
    Run (Step sampleEnv gcConfig (gcPlan duplicateBackend))
      (start duplicateBackend (gcIndex duplicateBackend)) ls s ∧ s.phase = .finished ∧
    duplicateBackend.Live gcCodec samplePlain 1 ∧
    loadBlob sampleEnv duplicateBackend (gcIndex duplicateBackend) 1 = some (samplePlain 1) ∧
    ∃ l, (gcIndex s.backend).get sampleEnv.toIndexEnv 1 = some l ∧
      s.backend.packs.lookup l.packId = none := by
  have h₀ : Run (Step sampleEnv gcConfig (gcPlan duplicateBackend))
      (start duplicateBackend (gcIndex duplicateBackend) : Gc Unit 1) [] _ := .nil
  have h₁ := h₀.snoc (.tidy rfl)
  have h₂ := h₁.snoc (.deleteUnused (p := 21) rfl (by decide))
  have h₃ := h₂.snoc (.cleanOnly (congrArg GcPhase.deletingUnused (by decide)) (by decide) (by decide))
  have f₁ := h₃.snoc (.flush rfl (.persist 10 rfl ⟨rfl, rfl, by decide⟩))
  have f₂ := f₁.snoc (.flush rfl (.mark rfl))
  have f₃ := f₂.snoc (.flush rfl (.done rfl))
  have f₄ := f₃.snoc (.flushed rfl rfl)
  have d₁ := f₄.snoc (.deleteIndex rfl (show (31 : ID) ∈ _ by decide))
  have d₂ := d₁.snoc (.deleteIndexFail rfl (show (30 : ID) ∈ _ by decide) (Or.inl rfl))
  have d₃ := d₂.snoc (.indicesDeleted (congrArg GcPhase.deletingIndices (by decide)))
  have d₄ := d₃.snoc (.done (congrArg GcPhase.deletingObsolete (by decide)))
  exact ⟨_, _, scan_duplicateBackend.1, scan_duplicateBackend.2, d₄, rfl, (live_tree rfl), by decide,
    ⟨21, 0, 2, 1, .tree⟩, by decide, by decide⟩

end Gc

end Mapache
