import Mapache.Repository.GcExecute
import Mapache.Repository.PackSaverFiles

/-!
# What a garbage collection keeps

The invariant of `Plan::execute`, by its phases. Until the index is cleaned the old index files are
the only ones, and only unused packs are gone. While the pipeline runs, the old files and the new
ones coexist; an entry of a new file is admitted by the plan (`Plan.Admitted`), and every wanted
blob is known to the pipeline or still on its way into it. After the flush every wanted blob is in a
new file, and the old files and the obsolete packs go.

A deletion of an old index file that fails is only logged, and then the obsolete packs go all the
same. The invariant has a set of index files that may be left over in this way (`GcEvent.Spares`).
-/

set_option autoImplicit false

namespace Mapache

open Lib

/-! ## The setting -/

/-- What a garbage collection starts from: a consistent repository, its index and the plan of the
scan. -/
structure GcSetting (env : Env) (codec : TreeCodec) (plain : ID → Bytes) (limits : GcLimits)
    (b₀ : Backend) (mi₀ : MasterIndex) (plan : Plan) : Prop where
  consistent : b₀.Consistent env plain
  reloaded : ∃ num : b₀.Instances, mi₀ = b₀.reloadMasterIndex env.toIndexEnv num
  described : plan.Describes env codec plain limits b₀ mi₀

namespace Plan

variable (env : IndexEnv) (mi₀ : MasterIndex) (plan : Plan)

/-- The entries that the index may have after the unused packs are gone: none in an unused pack, and
one in a pack that is to go only when nothing is repacked. -/
def Admitted : Set (ID × BlobLocator) :=
  { e | e.2.packId ∉ plan.unusedPacks ∧ (e.2.packId ∈ plan.packsToRepack →
      plan.locatorsToRepack (plan.cleanIndex env mi₀) = [] ∧
        e ∈ (plan.cleanIndex env mi₀).entries ∧ e.1 ∉ plan.referencedBlobs) }

/-- Nothing is repacked although the cleaned index has entries in the packs that are to go: a merge
of the index keeps one copy of a blob only, and those that it keeps of the live blobs lie in other
packs. -/
def Leftover : Prop :=
  plan.locatorsToRepack (plan.cleanIndex env mi₀) = [] ∧
    ∃ e ∈ (plan.cleanIndex env mi₀).entries, e.2.packId ∈ plan.packsToRepack

/-- The index that is in memory when the execution starts to write. -/
def writtenIndex : MasterIndex :=
  if plan.packsToRepack = ∅ then plan.cleanIndex env mi₀
  else plan.repackIndex env (plan.cleanIndex env mi₀)

/-- The blob is live, and the index found it before the collection. -/
def Wanted (id : ID) : Prop := id ∈ plan.referencedBlobs ∧ ∃ l, (id, l) ∈ mi₀.entries

end Plan

/-- What an execution needs of the repository it starts from. Entries of the index may point to
packs that are gone, but not those that are written at once. -/
structure GcGround (env : Env) (codec : TreeCodec) (plain : ID → Bytes) (limits : GcLimits)
    (b₀ : Backend) (mi₀ : MasterIndex) (plan : Plan) : Prop where
  intact : ∀ e ∈ mi₀.entries, (∃ data, b₀.packs.lookup e.2.packId = some data) → b₀.Holds env plain e
  known : ∀ e ∈ mi₀.entries, ¬ b₀.Fresh e.2.packId
  reloaded : ∃ num : b₀.Instances, mi₀ = b₀.reloadMasterIndex env.toIndexEnv num
  described : plan.Describes env codec plain limits b₀ mi₀
  written : ∀ e ∈ (plan.writtenIndex env.toIndexEnv mi₀).entries,
    ∃ data, b₀.packs.lookup e.2.packId = some data
  unsaved : plan.unusedPacks ≠ ∅ ∨ plan.packsToRepack ≠ ∅ →
    (plan.writtenIndex env.toIndexEnv mi₀).Unsaved

/-- The IDs that files of the collection may get. -/
def Backend.freshIds (b : Backend) : Set ID := { id | b.Fresh id }

section Setting

variable {env : Env} {codec : TreeCodec} {plain : ID → Bytes} {limits : GcLimits} {b₀ b : Backend}
  {mi₀ : MasterIndex} {plan : Plan} {id : ID} {l : BlobLocator}

/-- The entries of the index hold their blobs. -/
theorem GcSetting.holds (h : GcSetting env codec plain limits b₀ mi₀ plan) {e : ID × BlobLocator}
    (he : e ∈ mi₀.entries) : b₀.Holds env plain e := by
  obtain ⟨num, rfl⟩ := h.reloaded
  exact h.consistent.holds_reload e he

/-- An unused pack is there. -/
theorem GcGround.exists_unused (h : GcGround env codec plain limits b₀ mi₀ plan)
    (hp : id ∈ plan.unusedPacks) : ∃ data, b₀.packs.lookup id = some data :=
  ((h.described.unused id).mp hp).1

/-- A pack that is to be repacked is or was there. -/
theorem GcGround.not_fresh_obsolete (h : GcGround env codec plain limits b₀ mi₀ plan)
    (hp : id ∈ plan.packsToRepack) : ¬ b₀.Fresh id := by
  obtain ⟨e, he, rfl⟩ := h.described.exists_entry hp
  exact h.known e he

/-- The answers for live blobs lie in packs that are not unused. -/
theorem GcGround.get_not_unused (h : GcGround env codec plain limits b₀ mi₀ plan)
    (hid : id ∈ plan.referencedBlobs) (hget : mi₀.get env.toIndexEnv id = some l) :
    l.packId ∉ plan.unusedPacks := fun hp =>
  ((h.described.unused l.packId).mp hp).2 id l ((h.described.live id).mp hid) hget rfl

/-- The cleaned index has entries of the index outside the unused packs only. -/
theorem Plan.mem_cleanIndex {e : ID × BlobLocator}
    (he : e ∈ (plan.cleanIndex env.toIndexEnv mi₀).entries) :
    e ∈ mi₀.entries ∧ e.2.packId ∉ plan.unusedPacks := by
  unfold Plan.cleanIndex at he
  split at he
  · rename_i hempty
    refine ⟨he, ?_⟩
    rw [hempty]
    exact Finset.notMem_empty _
  · obtain ⟨hmem, hobs⟩ := MasterIndex.mem_entries_cleanup he
    exact ⟨hmem, by simpa [MasterIndex.isObsolete] using hobs⟩

/-- The index that is written has entries of the index only. -/
theorem Plan.mem_writtenIndex {e : ID × BlobLocator}
    (he : e ∈ (plan.writtenIndex env.toIndexEnv mi₀).entries) : e ∈ mi₀.entries := by
  unfold Plan.writtenIndex Plan.repackIndex at he
  split at he
  · exact (Plan.mem_cleanIndex he).1
  · split at he
    · exact (Plan.mem_cleanIndex he).1
    · exact (Plan.mem_cleanIndex (MasterIndex.mem_entries_cleanup he).1).1

/-- A wanted blob is in the cleaned index. -/
theorem GcGround.wanted_cleanIndex (h : GcGround env codec plain limits b₀ mi₀ plan)
    (hid : plan.Wanted mi₀ id) : ∃ l, (id, l) ∈ (plan.cleanIndex env.toIndexEnv mi₀).entries := by
  obtain ⟨hlive, l, hl⟩ := hid
  have hsome : (mi₀.get env.toIndexEnv id).isSome = true := MasterIndex.get_isSome hl
  obtain ⟨l', hget⟩ := Option.isSome_iff_exists.mp hsome
  unfold Plan.cleanIndex
  split
  · exact ⟨l, hl⟩
  · refine MasterIndex.cleanup_complete _ (MasterIndex.mem_of_get hget) ?_
    simpa [MasterIndex.isObsolete] using h.get_not_unused hlive hget

/-- When no pack is unused, each pack that is to go has live blobs. -/
theorem GcSetting.locators_ne_nil (h : GcSetting env codec plain limits b₀ mi₀ plan)
    (hunused : plan.unusedPacks = ∅) (hobs : plan.packsToRepack ≠ ∅) :
    plan.locatorsToRepack (plan.cleanIndex env.toIndexEnv mi₀) ≠ [] := by
  obtain ⟨p, hp⟩ := Finset.nonempty_iff_ne_empty.mpr hobs
  -- the pack is there and not unused, so a live blob is found in it
  have hused : ¬ b₀.Unused env.toIndexEnv codec plain mi₀ p := fun hun => by
    have hmem := (h.described.unused p).mpr hun
    rw [hunused] at hmem
    exact Finset.notMem_empty _ hmem
  have hthere : ∃ data, b₀.packs.lookup p = some data := by
    obtain ⟨e, he, rfl⟩ := h.described.exists_entry hp
    obtain ⟨data, hdata, -⟩ := h.holds he
    exact ⟨data, hdata⟩
  have hex : ∃ id l, b₀.Live codec plain id ∧ mi₀.get env.toIndexEnv id = some l ∧ l.packId = p := by
    by_contra hno
    refine hused ⟨hthere, fun id l hlive hget hpack => hno ⟨id, l, hlive, hget, hpack⟩⟩
  obtain ⟨id, l, hlive, hget, rfl⟩ := hex
  refine List.ne_nil_of_mem (a := (id, l)) (List.mem_filter.mpr ⟨?_, ?_⟩)
  · rw [Plan.cleanIndex, if_pos hunused]
    exact MasterIndex.mem_of_get hget
  · exact decide_eq_true ⟨(h.described.live id).mpr hlive, hp⟩

/-- A consistent repository is ground for an execution. -/
theorem GcSetting.ground (h : GcSetting env codec plain limits b₀ mi₀ plan) :
    GcGround env codec plain limits b₀ mi₀ plan := by
  have hthere : ∀ e ∈ mi₀.entries, ∃ data, b₀.packs.lookup e.2.packId = some data := by
    intro e he
    obtain ⟨data, hdata, -⟩ := h.holds he
    exact ⟨data, hdata⟩
  refine ⟨fun e he _ => h.holds he, fun e he hfresh => ?_, h.reloaded, h.described, fun e he => ?_, ?_⟩
  · obtain ⟨data, hdata⟩ := hthere e he
    rw [hfresh.1] at hdata
    cases hdata
  · exact hthere e (Plan.mem_writtenIndex he)
  · intro hne
    unfold Plan.writtenIndex
    split
    · rename_i hobs
      rw [Plan.cleanIndex, if_neg (hne.resolve_right (fun hne => hne hobs))]
      exact MasterIndex.unsaved_cleanup _ _ _
    · rename_i hobs
      unfold Plan.repackIndex
      split
      · -- nothing is repacked, so some pack is unused and the index was merged
        rename_i hnil
        rw [Plan.cleanIndex, if_neg fun hempty => h.locators_ne_nil hempty hobs hnil]
        exact MasterIndex.unsaved_cleanup _ _ _
      · exact MasterIndex.unsaved_cleanup _ _ _

theorem GcGround.wf_cleanIndex (h : GcGround env codec plain limits b₀ mi₀ plan) :
    (plan.cleanIndex env.toIndexEnv mi₀).WF ∧
      (plan.cleanIndex env.toIndexEnv mi₀).pendingBlobs = ∅ := by
  obtain ⟨num, rfl⟩ := h.reloaded
  unfold Plan.cleanIndex
  split
  · exact ⟨Backend.wf_reload, Backend.pendingBlobs_reload⟩
  · refine ⟨Backend.wf_reload.cleanup _ _, ?_⟩
    rw [MasterIndex.pendingBlobs_cleanup]
    exact Backend.pendingBlobs_reload

/-- The cleaned index is admitted. -/
theorem Plan.admitted_cleanIndex (hobs : plan.packsToRepack = ∅) {e : ID × BlobLocator}
    (he : e ∈ (plan.cleanIndex env.toIndexEnv mi₀).entries) : e ∈ plan.Admitted env.toIndexEnv
    mi₀ := by
  refine ⟨(Plan.mem_cleanIndex he).2, fun hp => ?_⟩
  rw [hobs] at hp
  exact absurd hp (Finset.notMem_empty _)

/-- The index that the repack starts with: its entries are admitted, and a wanted blob has an entry
or is among the blobs to repack. -/
structure RepackStart (env : Env) (mi₀ : MasterIndex) (plan : Plan) (index : MasterIndex) : Prop where
  wf : index.WF
  pending : index.pendingBlobs = ∅
  unsaved : index.Unsaved
  admitted : ∀ e ∈ index.entries, e ∈ mi₀.entries ∧ e ∈ plan.Admitted env.toIndexEnv mi₀
  wanted : ∀ id, plan.Wanted mi₀ id → (∃ l, (id, l) ∈ index.entries) ∨
    ∃ e ∈ plan.locatorsToRepack (plan.cleanIndex env.toIndexEnv mi₀), e.1 = id

theorem GcGround.repackStart (h : GcGround env codec plain limits b₀ mi₀ plan)
    (hobs : plan.packsToRepack ≠ ∅) :
    RepackStart env mi₀ plan
      (plan.repackIndex env.toIndexEnv (plan.cleanIndex env.toIndexEnv mi₀)) := by
  obtain ⟨hwf, hpending⟩ := h.wf_cleanIndex
  have hunsaved := h.unsaved (Or.inr hobs)
  rw [Plan.writtenIndex, if_neg hobs] at hunsaved
  unfold Plan.repackIndex at hunsaved ⊢
  split
  · rename_i hnil
    rw [if_pos hnil] at hunsaved
    refine ⟨hwf, hpending, hunsaved, fun e he => ⟨(Plan.mem_cleanIndex he).1,
      (Plan.mem_cleanIndex he).2,
      fun hp => ⟨hnil, he, fun hlive => ?_⟩⟩, fun id hid => Or.inl (h.wanted_cleanIndex hid)⟩
    · have hmem : e ∈ plan.locatorsToRepack (plan.cleanIndex env.toIndexEnv mi₀) :=
        List.mem_filter.mpr ⟨he, decide_eq_true ⟨hlive, hp⟩⟩
      rw [hnil] at hmem
      cases hmem
  · refine ⟨hwf.cleanup _ _, hpending, MasterIndex.unsaved_cleanup _ _ _, fun e he => ?_,
      fun id hid => ?_⟩
    · obtain ⟨hmem, hpack⟩ := MasterIndex.mem_entries_cleanup he
      have hpack' : e.2.packId ∉ plan.packsToRepack := by simpa [MasterIndex.isObsolete] using hpack
      exact ⟨(Plan.mem_cleanIndex hmem).1, (Plan.mem_cleanIndex hmem).2, fun hp => absurd hp hpack'⟩
    · obtain ⟨l, hl⟩ := h.wanted_cleanIndex hid
      by_cases hp : l.packId ∈ plan.packsToRepack
      · exact Or.inr ⟨(id, l), List.mem_filter.mpr ⟨hl, decide_eq_true ⟨hid.1, hp⟩⟩, rfl⟩
      · exact Or.inl (MasterIndex.cleanup_complete _ hl (by simpa [MasterIndex.isObsolete] using hp))

end Setting

/-! ## The files -/

/-- A pack after a write was there before, or it has a fresh ID. -/
theorem Pipe.Writes.lookup_pack {env : Env} {plain : ID → Bytes} {G : Set (ID × BlobLocator)}
    {b b' : Backend} (h : Pipe.Writes env plain G b b') {p : ID} {data : Bytes}
    (hp : b'.packs.lookup p = some data) : b.packs.lookup p = some data ∨ b.Fresh p := by
  cases h with
  | none => exact Or.inl hp
  | pack hfresh =>
    rw [Backend.savePack, Table.lookup_insert_eq_ite] at hp
    split at hp
    · rename_i heq
      exact Or.inr (heq ▸ hfresh)
    · exact Or.inl hp
  | index hfresh hgood => exact Or.inl hp

namespace Backend

/-- What is left of the files: packs outside `lost` stay, and no ID becomes fresh again. -/
structure Kept (lost : Finset ID) (b₀ b : Backend) : Prop where
  packs : ∀ p data, b₀.packs.lookup p = some data → p ∉ lost → b.packs.lookup p = some data
  written : ∀ p data, b.packs.lookup p = some data → b₀.packs.lookup p = some data ∨ b₀.Fresh p
  snapshots : b.snapshots = b₀.snapshots
  fresh : ∀ id, b.Fresh id → b₀.Fresh id

variable {env : Env} {plain : ID → Bytes} {lost lost' : Finset ID} {b₀ b b' : Backend} {id : ID}

theorem Kept.refl : Kept lost b₀ b₀ := ⟨fun _ _ hp _ => hp, fun _ _ hp => Or.inl hp, rfl, fun _ h => h⟩

theorem Kept.mono (h : Kept lost b₀ b) (hsub : lost ⊆ lost') : Kept lost' b₀ b :=
  ⟨fun p data hp hlost => h.packs p data hp fun hmem => hlost (hsub hmem), h.written, h.snapshots,
    h.fresh⟩

theorem Kept.holds (h : Kept lost b₀ b) {e : ID × BlobLocator} (he : b₀.Holds env plain e)
    (hp : e.2.packId ∉ lost) : b.Holds env plain e := by
  obtain ⟨data, hdata, hslice⟩ := he
  exact ⟨data, h.packs _ data hdata hp, hslice⟩

theorem Kept.deletePack (h : Kept lost b₀ b) (hid : id ∈ lost) : Kept lost b₀ (b.deletePack id) := by
  refine ⟨fun p data hp hlost => ?_, fun p data hp => ?_, h.snapshots,
    fun i hi => h.fresh i (fresh_of_deletePack hi)⟩
  · rw [lookup_deletePack, if_neg (fun heq : p = id => hlost (heq ▸ hid))]
    exact h.packs p data hp hlost
  · rw [lookup_deletePack] at hp
    split at hp
    · cases hp
    · exact h.written p data hp

theorem Kept.deleteIndex (h : Kept lost b₀ b) (id : ID) : Kept lost b₀ (b.deleteIndex id) :=
  ⟨h.packs, h.written, h.snapshots, fun i hi => h.fresh i (fresh_of_deleteIndex hi)⟩

theorem Kept.writes {G : Set (ID × BlobLocator)} (h : Kept lost b₀ b)
    (hw : Pipe.Writes env plain G b b') : Kept lost b₀ b' := by
  have hkeeps : Keeps ∅ b b' := hw.keeps
  refine ⟨fun p data hp hlost => hkeeps.packs p data (h.packs p data hp hlost), fun p data hp => ?_,
    hw.snapshots.trans h.snapshots, fun i hi => h.fresh i (hkeeps.fresh i hi)⟩
  rcases hw.lookup_pack hp with hold | hfresh
  · exact h.written p data hold
  · exact Or.inr (h.fresh p hfresh)

end Backend

/-- A file after a write was there before, or it has a fresh ID. -/
theorem Pipe.Writes.lookup_cases {env : Env} {plain : ID → Bytes} {G : Set (ID × BlobLocator)}
    {b b' : Backend} (h : Pipe.Writes env plain G b b') {fid : ID} {f : IndexFile}
    (hf : b'.index.lookup fid = some f) : b.index.lookup fid = some f ∨ b.Fresh fid := by
  cases h with
  | none => exact Or.inl hf
  | pack hfresh => exact Or.inl hf
  | @index fid' ix hfresh hgood =>
    rw [Backend.saveIndex, Table.lookup_insert_eq_ite] at hf
    split at hf
    · rename_i heq
      exact Or.inr (heq ▸ hfresh)
    · exact Or.inl hf

namespace Pipe

variable {κ : Type} {n : Nat} {env : Env} {plain : ID → Bytes} {G : Set (ID × BlobLocator)}
  {F : Set ID}
  {b : Backend} {index : MasterIndex}

/-- A pipeline without a pack saver is in the state of a flush that has joined its saver. -/
theorem Inv.persisting (hs : (Pipe.init index : Pipe κ n).Sound env plain G F b)
    (hpending : index.pendingBlobs = ∅) : (Pipe.persisting index : Pipe κ n).Inv env plain G F b := by
  classical
  obtain ⟨joined, hjoined⟩ : ∃ joined : Pipe κ n, joined =
      { (Pipe.init index : Pipe κ n) with
        tx := false
        saver := .finished true
        workers := fun _ => .exited
        flush := .joining } := ⟨_, rfl⟩
  have hsound : joined.Sound env plain G F b := by
    subst hjoined
    exact { hs with
      hand := fun _ p next hp => (by cases hp)
      workers := fun _ => trivial
      flush := trivial }
  have hsettled : joined.Settled := by
    subst hjoined
    refine ⟨fun _ => ⟨rfl, rfl, fun _ => rfl⟩, fun t next h => (by cases h), fun _ t _ => .new,
      fun w _ => Or.inr ⟨rfl, rfl⟩, fun _ => ⟨rfl, fun _ => rfl⟩, ?_, fun todo h => (by cases h)⟩
    rintro rfl
    exact ⟨rfl, rfl, fun p next h => by cases h⟩
  have hknown : joined.Known := by
    subst hjoined
    refine ⟨fun id hid => ?_, fun k c hc => (by cases hc), fun c hc => (by cases hc)⟩
    have hmem : id ∈ index.pendingBlobs := hid
    rw [hpending] at hmem
    cases hmem
  have hflush : FlushStep b joined .flush b (Pipe.persisting index : Pipe κ n) := by
    subst hjoined
    exact .joinOk rfl rfl
  have hhonest : (PipeEvent.flush : PipeEvent κ).Honest env plain := trivial
  exact Inv.step ⟨hsound, hsettled, hknown⟩ hhonest (.flush hflush)

end Pipe

/-! ## The phases -/

/-- An index file whose deletion is reported as failed is one of those that may stay. -/
def GcEvent.Spares {κ : Type} (b : Backend) (spared : Set IndexFile) : GcEvent κ → Prop
  | .indexFail fid => ∀ f, b.index.lookup fid = some f → f ∈ spared
  | _ => True

namespace Gc

variable {κ : Type} {n : Nat}

section Phases

variable (env : Env) (plain : ID → Bytes) (b₀ : Backend) (mi₀ : MasterIndex) (plan : Plan)

/-- Nothing has happened to the index. -/
structure Early (b : Backend) (pipe : Pipe κ n) : Prop where
  kept : Backend.Kept plan.unusedPacks b₀ b
  index : b.index = b₀.index
  init : pipe = .init mi₀

/-- The pipeline runs. -/
structure Running (b : Backend) (pipe : Pipe κ n) : Prop where
  kept : Backend.Kept plan.unusedPacks b₀ b
  old : ∀ fid f, b₀.index.lookup fid = some f → b.index.lookup fid = some f
  files : ∀ fid f, b.index.lookup fid = some f →
    b₀.index.lookup fid = some f ∨ fid ∈ b₀.freshIds
  sound : b.IndexSound env plain (plan.Admitted env.toIndexEnv mi₀) b₀.freshIds
  inv : pipe.Inv env plain (plan.Admitted env.toIndexEnv mi₀) b₀.freshIds b
  filed : pipe.Filed b₀.freshIds b

/-- Every wanted blob is known to the pipeline, or it is still to be loaded, to be saved or being
saved. -/
structure Repacks (pipe : Pipe κ n) (chunks : List (List (ID × BlobLocator))) (loaded : List Blob) :
    Prop where
  located : ∀ chunk ∈ chunks, ∀ e ∈ chunk,
    e ∈ plan.locatorsToRepack (plan.cleanIndex env.toIndexEnv mi₀)
  honest : ∀ c ∈ loaded, c.Honest plain
  wanted : ∀ id, plan.Wanted mi₀ id → pipe.Knows id ∨ (∃ chunk ∈ chunks, ∃ e ∈ chunk, e.1 = id) ∨
    (∃ c ∈ loaded, c.id = id) ∨ ∃ k c, (pipe.callers k).blob = some c ∧ c.id = id

/-- The new index files are complete. An entry of theirs may be in a pack that is to go, if there is
a leftover. -/
structure Flushed (lost : Finset ID) (b : Backend) : Prop where
  kept : Backend.Kept lost b₀ b
  indexed : ∀ id, plan.Wanted mi₀ id → b.Indexed b₀.freshIds id
  admitted : ∀ fid f, fid ∈ b₀.freshIds → b.index.lookup fid = some f → ∀ e ∈ f.entries,
    e ∈ plan.Admitted env.toIndexEnv mi₀ ∧
      (e.2.packId ∈ plan.packsToRepack ∨ b.Holds env plain e)

/-- The invariant of an execution, by its phase. -/
def Inv (spared : Set IndexFile) (s : Gc κ n) : Prop :=
  match s.phase with
  | .tidying => Early b₀ mi₀ plan s.backend s.pipe
  | .deletingUnused todo | .failed todo => Early b₀ mi₀ plan s.backend s.pipe ∧ todo ⊆ plan.unusedPacks
  | .repacking chunks loaded => Running env plain b₀ mi₀ plan s.backend s.pipe ∧
      Repacks env plain mi₀ plan s.pipe chunks loaded
  | .flushing => Running env plain b₀ mi₀ plan s.backend s.pipe ∧
      ∀ id, plan.Wanted mi₀ id → s.pipe.Knows id
  | .aborted loaded => Running env plain b₀ mi₀ plan s.backend s.pipe ∧ ∀ c ∈ loaded, c.Honest plain
  | .deletingIndices todo => Flushed env plain b₀ mi₀ plan plan.unusedPacks s.backend ∧
      (∀ fid f, s.backend.index.lookup fid = some f →
        fid ∈ b₀.freshIds ∨ ((fid ∈ todo ∨ f ∈ spared) ∧ b₀.index.lookup fid = some f)) ∧
      todo ⊆ plan.indexIds
  | .deletingObsolete todo =>
    Flushed env plain b₀ mi₀ plan (plan.unusedPacks ∪ plan.packsToRepack) s.backend ∧
    (∀ fid f, s.backend.index.lookup fid = some f →
      fid ∈ b₀.freshIds ∨ (f ∈ spared ∧ b₀.index.lookup fid = some f)) ∧ todo ⊆ plan.packsToRepack
  | .finished => (Early b₀ mi₀ plan s.backend s.pipe ∧ plan.unusedPacks = ∅ ∧ plan.packsToRepack = ∅) ∨
      (Flushed env plain b₀ mi₀ plan (plan.unusedPacks ∪ plan.packsToRepack) s.backend ∧
        ∀ fid f, s.backend.index.lookup fid = some f →
          fid ∈ b₀.freshIds ∨ (f ∈ spared ∧ b₀.index.lookup fid = some f))

end Phases

section Steps

variable {env : Env} {codec : TreeCodec} {plain : ID → Bytes} {limits : GcLimits} {config : GcConfig}
  {b₀ b b' : Backend} {mi₀ : MasterIndex} {plan : Plan} {spared : Set IndexFile}
    {pipe pipe' : Pipe κ n}

/-- A step of the pipeline. -/
theorem Running.step [DecidableEq κ] {l : PipeEvent κ} (h : Running env plain b₀ mi₀ plan b pipe)
    (hl : l.Honest env plain) (hstep : Pipe.Step env b pipe l b' pipe') :
    Running env plain b₀ mi₀ plan b' pipe' := by
  have hw := h.inv.sound.writes hstep
  refine ⟨h.kept.writes hw, fun fid f hf => hw.lookup_index (h.old fid f hf), fun fid f hf => ?_,
    hw.indexSound h.sound, h.inv.step hl hstep, h.filed.step h.inv.sound hstep⟩
  rcases hw.lookup_cases hf with hold | hfresh
  · exact h.files fid f hold
  · exact Or.inr (h.kept.fresh fid hfresh)

/-- A pipeline starts while the old index files are the only ones. -/
theorem Running.start (hkept : Backend.Kept plan.unusedPacks b₀ b) (hindex : b.index = b₀.index)
    (hpipe : pipe.Inv env plain (plan.Admitted env.toIndexEnv mi₀) b₀.freshIds b)
    (hfiled : pipe.Filed b₀.freshIds b) : Running env plain b₀ mi₀ plan b pipe := by
  refine ⟨hkept, fun fid f hf => by rw [hindex]; exact hf, fun fid f hf => ?_, fun fid f hF hf => ?_,
    hpipe, hfiled⟩
  · rw [hindex] at hf
    exact Or.inl hf
  · rw [hindex, hF.2.1] at hf
    cases hf

/-- Entries in a pack with a fresh ID are admitted. -/
theorem admits_fresh (hset : GcGround env codec plain limits b₀ mi₀ plan)
    (hkept : Backend.Kept plan.unusedPacks b₀ b) (id : ID) (hid : b.Fresh id) :
    (∀ e : ID × BlobLocator, e.2.packId = id → e ∈ plan.Admitted env.toIndexEnv mi₀) ∧
      id ∈ b₀.freshIds := by
  have hfresh := hkept.fresh id hid
  refine ⟨?_, hfresh⟩
  rintro e rfl
  refine ⟨fun hp => ?_, fun hp => ?_⟩
  · obtain ⟨data, hdata⟩ := hset.exists_unused hp
    rw [hfresh.1] at hdata
    cases hdata
  · exact absurd hfresh (hset.not_fresh_obsolete hp)

/-- An admitted entry of the index holds its blob. -/
theorem good_of_admitted (hset : GcGround env codec plain limits b₀ mi₀ plan)
    (hkept : Backend.Kept plan.unusedPacks b₀ b) {e : ID × BlobLocator} (he : e ∈ mi₀.entries)
    (hthere : ∃ data, b₀.packs.lookup e.2.packId = some data)
    (hadm : e ∈ plan.Admitted env.toIndexEnv mi₀) :
    Good env plain (plan.Admitted env.toIndexEnv mi₀) b e :=
  ⟨hadm, hkept.holds (hset.intact e he hthere) hadm.1⟩

/-- The start of the repack. -/
theorem running_init (hset : GcGround env codec plain limits b₀ mi₀ plan)
    (hkept : Backend.Kept plan.unusedPacks b₀ b) (hindex : b.index = b₀.index) {index : MasterIndex}
    (hstart : RepackStart env mi₀ plan index)
    (hthere : ∀ e ∈ index.entries, ∃ data, b₀.packs.lookup e.2.packId = some data) :
    Running env plain b₀ mi₀ plan b (Pipe.init index : Pipe κ n) := by
  refine .start hkept hindex (.init (.init hstart.wf (admits_fresh hset hkept) ?_ ?_) hstart.pending)
    (.init hstart.unsaved)
  · intro e he
    exact good_of_admitted hset hkept (hstart.admitted e he).1 (hthere e he) (hstart.admitted e he).2
  · intro ix hix hp
    rw [hstart.unsaved ix hix] at hp
    cases hp

/-- The start of the pipeline that only writes the cleaned index. -/
theorem running_persisting (hset : GcGround env codec plain limits b₀ mi₀ plan)
    (hkept : Backend.Kept plan.unusedPacks b₀ b) (hindex : b.index = b₀.index)
    (hobs : plan.packsToRepack = ∅) (hunused : plan.unusedPacks ≠ ∅) :
    Running env plain b₀ mi₀ plan b
      (Pipe.persisting (plan.cleanIndex env.toIndexEnv mi₀) : Pipe κ n) := by
  obtain ⟨hwf, hpending⟩ := hset.wf_cleanIndex
  have hunsaved := hset.unsaved (Or.inl hunused)
  have hthere := hset.written
  rw [Plan.writtenIndex, if_pos hobs] at hunsaved hthere
  have hgood : ∀ e ∈ (plan.cleanIndex env.toIndexEnv mi₀).entries,
      Good env plain (plan.Admitted env.toIndexEnv mi₀) b e := fun e he =>
    good_of_admitted hset hkept (Plan.mem_cleanIndex he).1 (hthere e he)
      (Plan.admitted_cleanIndex hobs he)
  have hsound : (Pipe.init (plan.cleanIndex env.toIndexEnv mi₀) : Pipe κ n).Sound env plain
      (plan.Admitted env.toIndexEnv mi₀) b₀.freshIds b := by
    refine .init hwf (admits_fresh hset hkept) hgood fun ix hix hp => ?_
    rw [hunsaved ix hix] at hp
    cases hp
  -- nothing of the finalized index is in a file yet
  have hunsaved' : (plan.cleanIndex env.toIndexEnv mi₀).finalizeAll.Unsaved := by
    intro ix hix
    obtain ⟨ix₀, hix₀, rfl⟩ := MasterIndex.mem_indices_finalizeAll hix
    split
    · rfl
    · exact hunsaved ix₀ hix₀
  refine .start hkept hindex (.persisting hsound hpending) ⟨?_, fun _ => trivial, trivial⟩
  intro ix hix fid hid
  rw [Index.id_eq_none (hunsaved' ix hix)] at hid
  cases hid

/-! ### The repack -/

section Repack

variable {chunks : List (List (ID × BlobLocator))} {loaded : List Blob}

theorem Repacks.start {index : MasterIndex} (hstart : RepackStart env mi₀ plan index) (budget : Nat) :
    Repacks env plain mi₀ plan (Pipe.init index : Pipe κ n)
      (repackChunks budget (plan.locatorsToRepack (plan.cleanIndex env.toIndexEnv mi₀))) [] := by
  refine ⟨fun chunk hchunk e he => ?_, fun c hc => (by cases hc), fun id hid => ?_⟩
  · have hmem := List.mem_flatten.mpr ⟨chunk, hchunk, he⟩
    rw [flatten_repackChunks] at hmem
    exact hmem
  · rcases hstart.wanted id hid with ⟨l, hl⟩ | ⟨e, he, heid⟩
    · exact Or.inl (Pipe.knows_of_entry hl)
    · have hflat := flatten_repackChunks budget
        (plan.locatorsToRepack (plan.cleanIndex env.toIndexEnv mi₀))
      obtain ⟨chunk, hchunk, hmem⟩ := List.mem_flatten.mp (hflat.symm ▸ he)
      exact Or.inr (Or.inl ⟨chunk, hchunk, e, hmem, heid⟩)

/-- The blobs of a chunk are loaded. -/
theorem Repacks.load (h : Repacks env plain mi₀ plan pipe chunks loaded)
    {chunk : List (ID × BlobLocator)} {result : Table ID Bytes} (hchunk : chunk ∈ chunks)
    (hresult : Loaded plain chunk result) (htypes : ∀ e ∈ chunk, e.2.blobType ≠ .padding) :
    Repacks env plain mi₀ plan pipe (chunks.erase chunk) (loaded ++ chunkBlobs chunk result) := by
  refine ⟨fun chunk' hchunk' => h.located chunk' (List.mem_of_mem_erase hchunk'), fun c hc => ?_,
    fun id hid => ?_⟩
  · rcases List.mem_append.mp hc with hold | hnew
    · exact h.honest c hold
    · refine ⟨?_, blobType_ne_padding_chunkBlobs htypes hnew⟩
      obtain ⟨⟨id, data⟩, hmem, rfl⟩ := List.mem_map.mp hnew
      exact hresult.sound id data (Table.mem_toList.mp hmem)
  · rcases h.wanted id hid with hknown | ⟨chunk', hchunk', e, he, rfl⟩ | ⟨c, hc, hcid⟩ | hcaller
    · exact Or.inl hknown
    · by_cases heq : chunk' = chunk
      · -- the blob was in the chunk, and it is loaded now
        subst heq
        obtain ⟨data, hdata⟩ := hresult.complete e he
        exact Or.inr (Or.inr (Or.inl ⟨_, List.mem_append_right _
          (List.mem_map_of_mem (Table.mem_toList.mpr hdata)), rfl⟩))
      · exact Or.inr (Or.inl ⟨chunk', (List.mem_erase_of_ne heq).mpr hchunk', e, he, rfl⟩)
    · exact Or.inr (Or.inr (Or.inl ⟨c, List.mem_append_left _ hc, hcid⟩))
    · exact Or.inr (Or.inr (Or.inr hcaller))

/-- A loaded blob is passed to a call. -/
theorem Repacks.call [DecidableEq κ] (h : Repacks env plain mi₀ plan pipe chunks loaded) {c : Blob}
    {k : κ}
    (hsound : pipe.Sound env plain (plan.Admitted env.toIndexEnv mi₀) b₀.freshIds b)
    (hstep : Pipe.CallStep env pipe (.call k c.blobType c.data (.withID c.id)) pipe') :
    Repacks env plain mi₀ plan pipe' chunks (loaded.erase c) := by
  refine ⟨h.located, fun c' hc' => h.honest c' (List.mem_of_mem_erase hc'), fun id hid => ?_⟩
  have hother : ∀ k', k' ≠ k → pipe'.callers k' = pipe.callers k' := fun k' hne =>
    hstep.callers_of_ne (Or.inr ⟨_, _, _, rfl⟩) hne
  have hself : (pipe.callers k).blob = none ∧ (pipe'.callers k).blob = some c := by
    cases hstep with
    | call _ _ _ hidle =>
      simp only [hidle, Function.update_self]
      exact ⟨rfl, rfl⟩
  rcases h.wanted id hid with hknown | hchunk | ⟨c', hc', hcid⟩ | ⟨k', c', hblob, hcid⟩
  · exact Or.inl (hknown.step hsound (.call hstep))
  · exact Or.inr (Or.inl hchunk)
  · by_cases heq : c' = c
    · exact Or.inr (Or.inr (Or.inr ⟨k, c, hself.2, heq ▸ hcid⟩))
    · exact Or.inr (Or.inr (Or.inl ⟨c', (List.mem_erase_of_ne heq).mpr hc', hcid⟩))
  · by_cases hk : k' = k
    · rw [hk, hself.1] at hblob
      cases hblob
    · exact Or.inr (Or.inr (Or.inr ⟨k', c', by rw [hother k' hk]; exact hblob, hcid⟩))

/-- A call goes on. When it ends without an error, its blob is known. -/
theorem Repacks.caller [DecidableEq κ] (h : Repacks env plain mi₀ plan pipe chunks loaded) {k : κ}
    (hinv : pipe.Inv env plain (plan.Admitted env.toIndexEnv mi₀) b₀.freshIds b)
    (hstep : Pipe.CallStep env pipe (.caller k) pipe')
    (hok : ((pipe.callers k).outcome (pipe'.callers k)).isErr ≠ true) :
    Repacks env plain mi₀ plan pipe' chunks loaded := by
  refine ⟨h.located, h.honest, fun id hid => ?_⟩
  rcases h.wanted id hid with hknown | hchunk | hload | ⟨k', c, hblob, hcid⟩
  · exact Or.inl (hknown.step hinv.sound (.call hstep))
  · exact Or.inr (Or.inl hchunk)
  · exact Or.inr (Or.inr (Or.inl hload))
  · by_cases hk : k' = k
    · subst hk
      rcases hstep.blob_or_idle with hsame | hidle
      · exact Or.inr (Or.inr (Or.inr ⟨k', c, hsame.trans hblob, hcid⟩))
      · -- the call has returned the ID
        have hreturned : pipe.callers k' = .returned c := by
          rw [hidle] at hok
          cases hphase : pipe.callers k' with
          | idle =>
            rw [hphase] at hblob
            cases hblob
          | returned c' =>
            rw [hphase] at hblob
            rw [Option.some.inj hblob]
          | _ =>
            rw [hphase] at hok
            exact absurd rfl hok
        have hknows : pipe.Knows c.id := hinv.known.callers k' c (by rw [hreturned]; rfl)
        exact Or.inl (hcid ▸ hknows.step hinv.sound (.call hstep))
    · refine Or.inr (Or.inr (Or.inr ⟨k', c, ?_, hcid⟩))
      rw [hstep.callers_of_ne (Or.inl rfl) hk]
      exact hblob

/-- The threads of the pack saver leave the calls alone. -/
theorem Repacks.frame [DecidableEq κ] {l : PipeEvent κ}
    (h : Repacks env plain mi₀ plan pipe chunks loaded)
    (hsound : pipe.Sound env plain (plan.Admitted env.toIndexEnv mi₀) b₀.freshIds b)
    (hstep : Pipe.Step env b pipe l b' pipe') (hcallers : pipe'.callers = pipe.callers) :
    Repacks env plain mi₀ plan pipe' chunks loaded := by
  refine ⟨h.located, h.honest, fun id hid => ?_⟩
  rw [hcallers]
  exact (h.wanted id hid).imp_left fun hknown => hknown.step hsound hstep

end Repack

/-! ### The deletions -/

theorem Early.deletePack {p : ID} (h : Early b₀ mi₀ plan b pipe) (hp : p ∈ plan.unusedPacks) :
    Early b₀ mi₀ plan (b.deletePack p) pipe :=
  ⟨h.kept.deletePack hp, h.index, h.init⟩

/-- An old index file has no fresh ID. -/
theorem not_fresh_of_mem_indexIds (hset : GcGround env codec plain limits b₀ mi₀ plan) {fid : ID}
    (hfid : fid ∈ plan.indexIds) : fid ∉ b₀.freshIds := by
  intro hfresh
  obtain ⟨num, hmi⟩ := hset.reloaded
  rw [hset.described.indexIds, hmi, Backend.mem_ids_reload] at hfid
  obtain ⟨f, hf⟩ := hfid
  rw [hfresh.2.1] at hf
  cases hf

theorem Flushed.deleteIndex {lost : Finset ID} {fid : ID} (h : Flushed env plain b₀ mi₀ plan lost b)
    (hfid : fid ∉ b₀.freshIds) : Flushed env plain b₀ mi₀ plan lost (b.deleteIndex fid) := by
  refine ⟨h.kept.deleteIndex fid,
    fun id hid => Backend.indexed_deleteIndex fid (h.indexed id hid) hfid,
    fun fid' f hF hf e he => ?_⟩
  rw [Backend.lookup_deleteIndex] at hf
  split at hf
  · cases hf
  · exact h.admitted fid' f hF hf e he

theorem Flushed.deletePack {p : ID}
    (h : Flushed env plain b₀ mi₀ plan (plan.unusedPacks ∪ plan.packsToRepack) b)
    (hp : p ∈ plan.packsToRepack) :
    Flushed env plain b₀ mi₀ plan (plan.unusedPacks ∪ plan.packsToRepack) (b.deletePack p) := by
  refine ⟨h.kept.deletePack (Finset.mem_union_right _ hp), h.indexed, fun fid f hF hf e he => ?_⟩
  obtain ⟨hadm, hholds⟩ := h.admitted fid f hF hf e he
  refine ⟨hadm, ?_⟩
  by_cases hobs : e.2.packId ∈ plan.packsToRepack
  · exact Or.inl hobs
  · obtain ⟨data, hdata, hslice⟩ := hholds.resolve_left hobs
    refine Or.inr ⟨data, ?_, hslice⟩
    rw [Backend.lookup_deletePack, if_neg (fun heq : e.2.packId = p => hobs (heq ▸ hp))]
    exact hdata

/-! ### All steps -/

/-- A step of the threads of the pack saver. -/
theorem Inv.packing [DecidableEq κ] {s : Gc κ n} {l : PipeEvent κ}
    (h : s.Inv env plain b₀ mi₀ plan spared)
    (hphase : s.phase.packing = true) (hl : l.Honest env plain)
    (hstep : Pipe.Step env s.backend s.pipe l b' pipe') (hcallers : pipe'.callers = s.pipe.callers) :
    Inv env plain b₀ mi₀ plan spared { s with backend := b', pipe := pipe' } := by
  unfold Inv at h ⊢
  dsimp only
  cases hp : s.phase with
  | repacking chunks loaded =>
    rw [hp] at h
    exact ⟨h.1.step hl hstep, h.2.frame h.1.inv.sound hstep hcallers⟩
  | flushing =>
    rw [hp] at h
    exact ⟨h.1.step hl hstep, fun id hid => (h.2 id hid).step h.1.inv.sound hstep⟩
  | aborted loaded =>
    rw [hp] at h
    exact ⟨h.1.step hl hstep, h.2⟩
  | _ =>
    rw [hp] at hphase
    cases hphase

theorem honest_worker {s s' : Pipe κ n} {l : PipeEvent κ} (h : Pipe.WorkerStep env b s l b' s') :
    l.Honest env plain := by
  cases h <;> trivial

theorem honest_flush {s s' : Pipe κ n} {l : PipeEvent κ} (h : Pipe.FlushStep b s l b' s') :
    l.Honest env plain := by
  cases h <;> trivial

/-- The flush has returned. -/
theorem Running.flushed (hset : GcGround env codec plain limits b₀ mi₀ plan)
    (h : Running env plain b₀ mi₀ plan b pipe) (hwanted : ∀ id, plan.Wanted mi₀ id → pipe.Knows id)
    (hflush : pipe.flush = .finished true) :
    Flushed env plain b₀ mi₀ plan plan.unusedPacks b ∧
      ∀ fid f, b.index.lookup fid = some f →
        fid ∈ b₀.freshIds ∨ (fid ∈ plan.indexIds \ pipe.index.ids ∧ b₀.index.lookup fid = some f) := by
  refine ⟨⟨h.kept, fun id hid => h.inv.indexed_of_flush hflush (hwanted id hid), ?_⟩,
    fun fid f hf => ?_⟩
  · intro fid f hF hf e he
    exact ⟨(h.sound fid f hF hf e he).1, Or.inr (h.sound fid f hF hf e he).2⟩
  · rcases h.files fid f hf with hold | hfresh
    · -- an old file: the index knows new ones only
      have hmem : fid ∈ plan.indexIds := by
        obtain ⟨num, hmi⟩ := hset.reloaded
        rw [hset.described.indexIds, hmi, Backend.mem_ids_reload]
        exact ⟨f, hold⟩
      refine Or.inr ⟨Finset.mem_sdiff.mpr ⟨hmem, fun hid => ?_⟩, hold⟩
      exact not_fresh_of_mem_indexIds hset hmem (h.filed.mem_ids hid)
    · exact Or.inl hfresh

/-- The invariant in a phase, from that of the state. -/
theorem Inv.of_phase {s : Gc κ n} {phase : GcPhase} (h : s.Inv env plain b₀ mi₀ plan spared)
    (hphase : s.phase = phase) : Inv env plain b₀ mi₀ plan spared { s with phase := phase } := by
  rw [← hphase]
  exact h

/-- An old index file is deleted. -/
theorem Inv.deleteIndex {s : Gc κ n} {todo : Finset ID} {fid : ID}
    (hset : GcGround env codec plain limits b₀ mi₀ plan) (h : s.Inv env plain b₀ mi₀ plan spared)
    (hp : s.phase = .deletingIndices todo) (hmem : fid ∈ todo) :
    Inv env plain b₀ mi₀ plan spared
      { s with backend := s.backend.deleteIndex fid, phase := .deletingIndices (todo.erase fid) } := by
  obtain ⟨hflushed, hfiles, hsub⟩ := h.of_phase hp
  refine ⟨hflushed.deleteIndex (not_fresh_of_mem_indexIds hset (hsub hmem)), fun fid' f hf => ?_,
    (Finset.erase_subset _ _).trans hsub⟩
  rw [Backend.lookup_deleteIndex] at hf
  split at hf
  · cases hf
  · rename_i hne
    refine (hfiles fid' f hf).imp_right fun ⟨htodo, hold⟩ => ⟨?_, hold⟩
    exact htodo.imp_left fun htodo => Finset.mem_erase.mpr ⟨hne, htodo⟩

/-- An unused pack is deleted, by the execution or after it has failed. -/
theorem Inv.deleteUnused {s : Gc κ n} {todo : Finset ID} {p : ID}
    (h : s.Inv env plain b₀ mi₀ plan spared)
    (hp : s.phase = .deletingUnused todo ∨ s.phase = .failed todo) (hmem : p ∈ todo) :
    Early b₀ mi₀ plan (s.backend.deletePack p) s.pipe ∧ todo.erase p ⊆ plan.unusedPacks := by
  have hphase : Early b₀ mi₀ plan s.backend s.pipe ∧ todo ⊆ plan.unusedPacks := by
    rcases hp with hp | hp <;> exact h.of_phase hp
  obtain ⟨hearly, hsub⟩ := hphase
  exact ⟨hearly.deletePack (hsub hmem), (Finset.erase_subset _ _).trans hsub⟩

/-- The repack starts with an index without the unused and the obsolete packs. -/
theorem Inv.repack {s : Gc κ n} (hset : GcGround env codec plain limits b₀ mi₀ plan)
    (h : s.Inv env plain b₀ mi₀ plan spared) (hp : s.phase = .deletingUnused ∅)
    (hobs : plan.packsToRepack ≠ ∅) :
    Inv env plain b₀ mi₀ plan spared ({ s with
      pipe := .init (plan.repackIndex env.toIndexEnv (plan.cleanIndex env.toIndexEnv s.pipe.index))
      phase := .repacking (repackChunks config.decodedBudget
        (plan.locatorsToRepack (plan.cleanIndex env.toIndexEnv s.pipe.index))) [] } : Gc κ n) := by
  obtain ⟨hearly, -⟩ := h.of_phase hp
  have hindex : s.pipe.index = mi₀ := by
    rw [hearly.init]
    rfl
  rw [hindex]
  have hstart := hset.repackStart hobs
  have hthere := hset.written
  rw [Plan.writtenIndex, if_neg hobs] at hthere
  exact ⟨running_init hset hearly.kept hearly.index hstart hthere, .start hstart _⟩

/-- Only the index is written. -/
theorem Inv.cleanOnly {s : Gc κ n} (hset : GcGround env codec plain limits b₀ mi₀ plan)
    (h : s.Inv env plain b₀ mi₀ plan spared) (hp : s.phase = .deletingUnused ∅)
    (hobs : plan.packsToRepack = ∅) (hunused : plan.unusedPacks ≠ ∅) :
    Inv env plain b₀ mi₀ plan spared ({ s with
      pipe := .persisting (plan.cleanIndex env.toIndexEnv s.pipe.index)
      phase := .flushing } : Gc κ n) := by
  obtain ⟨hearly, -⟩ := h.of_phase hp
  have hindex : s.pipe.index = mi₀ := by
    rw [hearly.init]
    rfl
  rw [hindex]
  refine ⟨running_persisting hset hearly.kept hearly.index hobs hunused, fun id hid => ?_⟩
  obtain ⟨l, hl⟩ := hset.wanted_cleanIndex hid
  apply Pipe.knows_of_entry (l := l)
  simpa [Pipe.persisting, Pipe.init] using hl

/-- The blobs of a chunk are loaded: their packs were read, so they are still there. -/
theorem Inv.load {s : Gc κ n} {chunks : List (List (ID × BlobLocator))} {loaded : List Blob}
    {chunk : List (ID × BlobLocator)} {result : Table ID Bytes}
    (hset : GcGround env codec plain limits b₀ mi₀ plan) (h : s.Inv env plain b₀ mi₀ plan spared)
    (hp : s.phase = .repacking chunks loaded) (hchunk : chunk ∈ chunks)
    (hresult : LoadsWithLocators env config.segments s.backend chunk result) :
    Inv env plain b₀ mi₀ plan spared
      { s with phase := .repacking (chunks.erase chunk) (loaded ++ chunkBlobs chunk result) } := by
  obtain ⟨hrun, hrep⟩ := h.of_phase hp
  refine ⟨hrun, hrep.load hchunk (hresult.loaded fun e he => ?_) fun e he => ?_⟩
  · obtain ⟨hmem, -⟩ := List.mem_filter.mp (hrep.located chunk hchunk e he)
    obtain ⟨hentry, hunused⟩ := Plan.mem_cleanIndex hmem
    obtain ⟨data, hdata⟩ := hresult.exists_pack he
    have hold := (hrun.kept.written _ data hdata).resolve_right (hset.known e hentry)
    exact hrun.kept.holds (hset.intact e hentry ⟨data, hold⟩) hunused
  · obtain ⟨hmem, -⟩ := List.mem_filter.mp (hrep.located chunk hchunk e he)
    obtain ⟨ix, -, hix⟩ := MasterIndex.mem_entries.mp hmem
    exact Index.blobType_ne_padding hix

/-- A call goes on, or it ends the repack with an error. -/
theorem Inv.caller [DecidableEq κ] {s : Gc κ n} {chunks : List (List (ID × BlobLocator))}
    {loaded : List Blob} {k : κ} (h : s.Inv env plain b₀ mi₀ plan spared)
    (hp : s.phase = .repacking chunks loaded) (hcall : Pipe.CallStep env s.pipe (.caller k) pipe') :
    Inv env plain b₀ mi₀ plan spared { s with
      pipe := pipe'
      phase := if ((s.pipe.callers k).outcome (pipe'.callers k)).isErr then .aborted loaded
        else .repacking chunks loaded } := by
  obtain ⟨hrun, hrep⟩ := h.of_phase hp
  have hhonest : (PipeEvent.caller k).Honest env plain := trivial
  have hrun' := hrun.step hhonest (.call hcall)
  by_cases herr : ((s.pipe.callers k).outcome (pipe'.callers k)).isErr = true
  · rw [if_pos herr]
    exact ⟨hrun', hrep.honest⟩
  · rw [if_neg herr]
    exact ⟨hrun', hrep.caller hrun.inv hcall herr⟩

/-- A call goes on after the repack has failed. -/
theorem Inv.callerLate [DecidableEq κ] {s : Gc κ n} {loaded : List Blob} {k : κ}
    (h : s.Inv env plain b₀ mi₀ plan spared) (hp : s.phase = .aborted loaded)
    (hcall : Pipe.CallStep env s.pipe (.caller k) pipe') :
    Inv env plain b₀ mi₀ plan spared { s with pipe := pipe' } := by
  obtain ⟨hrun, hloaded⟩ := h.of_phase hp
  have hhonest : (PipeEvent.caller k).Honest env plain := trivial
  have hnew : Inv env plain b₀ mi₀ plan spared { s with pipe := pipe', phase := .aborted loaded } :=
    ⟨hrun.step hhonest (.call hcall), hloaded⟩
  rw [← hp] at hnew
  exact hnew

/-- All chunks are loaded, all blobs are saved and all calls have returned: every wanted blob is
known to the pipeline. -/
theorem Inv.repacked {s : Gc κ n} (h : s.Inv env plain b₀ mi₀ plan spared)
    (hp : s.phase = .repacking [] []) (hidle : ∀ k, s.pipe.callers k = .idle) :
    Inv env plain b₀ mi₀ plan spared { s with phase := .flushing } := by
  obtain ⟨hrun, hrep⟩ := h.of_phase hp
  refine ⟨hrun, fun id hid => ?_⟩
  rcases hrep.wanted id hid with hknown | ⟨chunk, hchunk, -⟩ | ⟨c, hc, -⟩ | ⟨k, c, hblob, -⟩
  · exact hknown
  · cases hchunk
  · cases hc
  · rw [hidle k] at hblob
    cases hblob

/-- The deletion of an old index file fails and leaves it: it is a spared one. -/
theorem Inv.keepIndex {s : Gc κ n} {todo : Finset ID} {fid : ID}
    (h : s.Inv env plain b₀ mi₀ plan spared) (hp : s.phase = .deletingIndices todo)
    (hspared : ∀ f, b₀.index.lookup fid = some f → f ∈ spared) :
    Inv env plain b₀ mi₀ plan spared { s with phase := .deletingIndices (todo.erase fid) } := by
  obtain ⟨hflushed, hfiles, hsub⟩ := h.of_phase hp
  refine ⟨hflushed, fun fid' f hf => ?_, (Finset.erase_subset _ _).trans hsub⟩
  refine (hfiles fid' f hf).imp_right fun ⟨htodo, hold⟩ => ⟨?_, hold⟩
  by_cases heq : fid' = fid
  · exact Or.inr (hspared f (heq ▸ hold))
  · exact htodo.imp_left fun htodo => Finset.mem_erase.mpr ⟨heq, htodo⟩

/-- No old index file is left but the spared ones. -/
theorem Inv.indicesDeleted {s : Gc κ n} (h : s.Inv env plain b₀ mi₀ plan spared)
    (hp : s.phase = .deletingIndices ∅) :
    Inv env plain b₀ mi₀ plan spared { s with phase := .deletingObsolete plan.packsToRepack } := by
  obtain ⟨hflushed, hfiles, -⟩ := h.of_phase hp
  refine ⟨⟨hflushed.kept.mono Finset.subset_union_left, hflushed.indexed, hflushed.admitted⟩,
    fun fid f hf => ?_, subset_rfl⟩
  refine (hfiles fid f hf).imp_right fun ⟨htodo, hold⟩ => ⟨?_, hold⟩
  exact htodo.resolve_left (Finset.notMem_empty _)

/-- An obsolete pack is deleted, or it stays. -/
theorem Inv.deleteObsolete {s : Gc κ n} {todo : Finset ID} {p : ID}
    (h : s.Inv env plain b₀ mi₀ plan spared) (hp : s.phase = .deletingObsolete todo) (hmem : p ∈ todo)
    (hb : b' = s.backend ∨ b' = s.backend.deletePack p) :
    Inv env plain b₀ mi₀ plan spared
      { s with backend := b', phase := .deletingObsolete (todo.erase p) } := by
  obtain ⟨hflushed, hfiles, hsub⟩ := h.of_phase hp
  rcases hb with rfl | rfl
  · exact ⟨hflushed, hfiles, (Finset.erase_subset _ _).trans hsub⟩
  · exact ⟨hflushed.deletePack (hsub hmem), hfiles, (Finset.erase_subset _ _).trans hsub⟩

/-- **Every step keeps the invariant.** -/
theorem Inv.step [DecidableEq κ] {s s' : Gc κ n} {l : GcEvent κ}
    (hset : GcGround env codec plain limits b₀ mi₀ plan) (hl : l.Spares b₀ spared)
    (h : s.Inv env plain b₀ mi₀ plan spared) (hstep : Step env config plan s l s') :
    s'.Inv env plain b₀ mi₀ plan spared := by
  cases hstep with
  | tidy hp =>
    have hearly : Early b₀ mi₀ plan s.backend s.pipe := h.of_phase hp
    exact ⟨hearly, subset_rfl⟩
  | tidyFail hp =>
    have hearly : Early b₀ mi₀ plan s.backend s.pipe := h.of_phase hp
    exact ⟨hearly, Finset.empty_subset _⟩
  | deleteUnused hp hmem => exact h.deleteUnused (Or.inl hp) hmem
  | deleteLate hp hmem => exact h.deleteUnused (Or.inr hp) hmem
  | deleteUnusedFail hp hmem hfail =>
    rcases hfail with rfl | rfl
    · obtain ⟨hearly, hsub⟩ := h.of_phase hp
      exact ⟨hearly, (Finset.erase_subset _ _).trans hsub⟩
    · exact h.deleteUnused (Or.inl hp) hmem
  | interrupt hp =>
    obtain ⟨hearly, hsub⟩ := h.of_phase hp
    exact ⟨hearly, hsub⟩
  | repack hp hobs => exact h.repack hset hp hobs
  | cleanOnly hp hobs hunused => exact h.cleanOnly hset hp hobs hunused
  | nothing hp hobs hunused =>
    obtain ⟨hearly, -⟩ := h.of_phase hp
    exact Or.inl ⟨hearly, hunused, hobs⟩
  | load hp hchunk hresult => exact h.load hset hp hchunk hresult
  | repackFail hp =>
    obtain ⟨hrun, hrep⟩ := h.of_phase hp
    exact ⟨hrun, hrep.honest⟩
  | save hp hc hcall =>
    obtain ⟨hrun, hrep⟩ := h.of_phase hp
    refine ⟨hrun.step ?_ (.call hcall), hrep.call hrun.inv.sound hcall⟩
    exact hrep.honest _ hc
  | saveLate hp hc hcall =>
    obtain ⟨hrun, hhonest⟩ := h.of_phase hp
    refine ⟨hrun.step ?_ (.call hcall), fun c hmem => hhonest c (List.mem_of_mem_erase hmem)⟩
    exact hhonest _ hc
  | caller hp hcall => exact h.caller hp hcall
  | callerLate hp hcall => exact h.callerLate hp hcall
  | saver hp hsaver =>
    have hhonest : (PipeEvent.saver : PipeEvent κ).Honest env plain := trivial
    exact h.packing hp hhonest (.saver hsaver) hsaver.frame.1
  | worker hp hworker =>
    exact h.packing hp (honest_worker hworker) (.worker hworker) hworker.frame.2.2.2.1
  | repacked hp hidle => exact h.repacked hp hidle
  | flush hp hflush =>
    exact h.packing (by rw [hp]; rfl) (honest_flush hflush) (.flush hflush) hflush.callers_eq
  | flushed hp hflush =>
    obtain ⟨hrun, hwanted⟩ := h.of_phase hp
    obtain ⟨hflushed, hfiles⟩ := hrun.flushed hset hwanted hflush
    refine ⟨hflushed, fun fid f hf => ?_, Finset.sdiff_subset⟩
    exact (hfiles fid f hf).imp_right fun hold => ⟨Or.inl hold.1, hold.2⟩
  | flushFail hp hflush =>
    obtain ⟨hrun, -⟩ := h.of_phase hp
    exact ⟨hrun, fun c hc => by cases hc⟩
  | deleteIndex hp hmem => exact h.deleteIndex hset hp hmem
  | deleteIndexFail hp hmem hfail =>
    rcases hfail with rfl | rfl
    · exact h.keepIndex hp hl
    · exact h.deleteIndex hset hp hmem
  | indicesDeleted hp => exact h.indicesDeleted hp
  | deleteObsolete hp hmem => exact h.deleteObsolete hp hmem (Or.inr rfl)
  | deleteObsoleteFail hp hmem hfail => exact h.deleteObsolete hp hmem hfail
  | done hp =>
    obtain ⟨hflushed, hfiles, -⟩ := h.of_phase hp
    exact Or.inr ⟨hflushed, hfiles⟩

theorem Inv.start : Inv env plain b₀ mi₀ plan spared (start b₀ mi₀ : Gc κ n) :=
  ⟨.refl, rfl, rfl⟩

/-- The invariant holds in every state of a run. -/
theorem inv_run [DecidableEq κ] (hset : GcGround env codec plain limits b₀ mi₀ plan)
    {ls : List (GcEvent κ)} {s : Gc κ n} (hrun : Run (Step env config plan) (start b₀ mi₀) ls s)
    (hls : ∀ l ∈ ls, l.Spares b₀ spared) : s.Inv env plain b₀ mi₀ plan spared :=
  hrun.invariant_of_labels (fun _ _ _ hl h hstep => h.step hset hl hstep) hls .start

end Steps

end Gc

end Mapache
