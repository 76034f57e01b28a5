import Mapache.Repository.SaveBlob

/-!
# The files of a pipeline

Two further invariants of a pack pipeline that has the repository for itself. `Pipe.Filed` relates
the index in memory to the files: an index that counts as persisted has a file with all its entries,
under an ID from `F`. `Pipe.Quiet` describes a pipeline that nobody calls: it moves no blob, so the
index keeps its entries.
-/

set_option autoImplicit false

namespace Mapache

open Lib

/-- The file with the ID has all entries of the index. -/
def Index.FiledAs (F : Set ID) (b : Backend) (ix : Index) (fid : ID) : Prop :=
  fid ∈ F ∧ ∃ f, b.index.lookup fid = some f ∧ ∀ e ∈ ix.iterIds, e ∈ f.entries

/-- The file that a worker is about to record is that of its index. -/
def WorkerPhase.Filed (F : Set ID) (b : Backend) : WorkerPhase → Prop
  | .marking ix fid => ix.FiledAs F b fid
  | _ => True

/-- The file that a flush is about to record is that of its index. -/
def FlushPhase.Filed (F : Set ID) (b : Backend) : FlushPhase → Prop
  | .marking ix fid _ => ix.FiledAs F b fid
  | _ => True

namespace Pipe

variable {κ : Type} {n : Nat} {env : Env} {plain : ID → Bytes}
  {G : Set (ID × BlobLocator)} {F : Set ID} {b b' : Backend} {s s' : Pipe κ n}

/-- Every index that counts as persisted has its file. -/
structure Filed (F : Set ID) (b : Backend) (s : Pipe κ n) : Prop where
  indices : ∀ ix ∈ s.index.indices, ∀ fid, ix.id = some fid → ix.FiledAs F b fid
  workers : ∀ w, (s.workers w).Filed F b
  flush : s.flush.Filed F b

theorem Writes.lookup_index (h : Writes env plain G b b') {fid : ID} {f : IndexFile}
    (hf : b.index.lookup fid = some f) : b'.index.lookup fid = some f := by
  cases h with
  | none => exact hf
  | pack hfresh => exact hf
  | @index fid' ix hfresh hgood =>
    rw [Backend.saveIndex, Table.lookup_insert_eq_ite]
    split
    · rename_i heq
      rw [heq, hfresh.2.1] at hf
      cases hf
    · exact hf

/-- Other files do not disturb that of an index. -/
theorem Filed.writes (h : s.Filed F b) (hw : Writes env plain G b b') : s.Filed F b' := by
  have hmono : ∀ {ix : Index} {fid : ID}, ix.FiledAs F b fid → ix.FiledAs F b' fid := by
    rintro ix fid ⟨hF, f, hf, hall⟩
    exact ⟨hF, f, hw.lookup_index hf, hall⟩
  refine ⟨fun ix hix fid hid => hmono (h.indices ix hix fid hid), fun w => ?_, ?_⟩
  · have hworker := h.workers w
    cases hphase : s.workers w with
    | marking ix fid =>
      rw [hphase] at hworker
      exact hmono hworker
    | _ => trivial
  · have hflush := h.flush
    cases hphase : s.flush with
    | marking ix fid todo =>
      rw [hphase] at hflush
      exact hmono hflush
    | _ => trivial

theorem filedAs_saveIndex {ix : Index} {fid : ID} (hF : fid ∈ F) :
    ix.FiledAs F (b.saveIndex fid ix.toFile) fid := by
  refine ⟨hF, ix.toFile, ?_, fun e he => Index.mem_entries_toFile.mpr he⟩
  rw [Backend.saveIndex, AList.lookup_insert]

/-- Recording the file of an index, which still has the entries that were written. -/
theorem Filed.mark (h : s.Filed F b) {ix : Index} {fid : ID} (hfrozen : s.index.Frozen ix)
    (hfiled : ix.FiledAs F b fid) :
    ∀ ix' ∈ (s.index.setPersisted ix.instanceId fid).indices, ∀ fid', ix'.id = some fid' →
      ix'.FiledAs F b fid' := by
  intro ix' hix' fid' hid
  rcases MasterIndex.mem_indices_setPersisted hix' with hold | ⟨ix₀, hix₀, hinst, rfl⟩
  · exact h.indices ix' hold fid' hid
  · cases hid
    obtain ⟨hF, f, hf, hall⟩ := hfiled
    refine ⟨hF, f, hf, fun e he => hall e ?_⟩
    rw [Index.iterIds_setStatus, (hfrozen.2 ix₀ hix₀ hinst).2] at he
    exact he

theorem Filed.workerStep {l : PipeEvent κ} (h : s.Filed F b) (hs : s.Sound env plain G F b)
    (hwrites : Writes env plain G b b') (hstep : WorkerStep env b s l b' s') : s'.Filed F b' := by
  have h' := h.writes hwrites
  cases hstep with
  | @register _ w pack timedOut hw =>
    refine ⟨fun ix hix fid hid => ?_, forall_update h'.workers ?_, h'.flush⟩
    · rcases MasterIndex.mem_indices_addPackLocked hix with (hold | rfl) | ⟨ix₀, _, hp, rfl⟩
      · exact h.indices ix hold fid hid
      · cases hid
      · rw [Index.id_eq_none (MasterIndex.fillPending_isPersisted hp)] at hid
        cases hid
    · split <;> trivial
  | @persist _ w ix fid hw hfresh =>
    exact ⟨h'.indices, forall_update h'.workers (filedAs_saveIndex (hs.admits _ hfresh).2), h'.flush⟩
  | @mark _ w ix fid hw =>
    have hfiled := h.workers w
    rw [hw] at hfiled
    have hwf := hs.workers w
    rw [hw] at hwf
    exact ⟨h.mark hwf.1 hfiled, forall_update h'.workers trivial, h'.flush⟩
  | _ => exact ⟨h'.indices, forall_update h'.workers trivial, h'.flush⟩

theorem Filed.flushStep {l : PipeEvent κ} (h : s.Filed F b) (hs : s.Sound env plain G F b)
    (hw : Writes env plain G b b') (hstep : FlushStep b s l b' s') : s'.Filed F b' := by
  have h' := h.writes hw
  cases hstep with
  | joinOk hf hsv =>
    refine ⟨fun ix hix fid hid => ?_, h'.workers, trivial⟩
    obtain ⟨ix₀, hix₀, rfl⟩ := MasterIndex.mem_indices_finalizeAll hix
    split at hid
    · cases hid
    · rw [if_neg ‹_›]
      exact h.indices ix₀ hix₀ fid hid
  | @persist _ ix todo fid hf hfresh =>
    exact ⟨h'.indices, h'.workers, filedAs_saveIndex (hs.admits _ hfresh).2⟩
  | @mark _ ix todo fid hf =>
    have hfiled := h.flush
    rw [hf] at hfiled
    have hwf := hs.flush
    rw [hf] at hwf
    exact ⟨h.mark hwf.1.1 hfiled, h'.workers, trivial⟩
  | _ => exact ⟨h'.indices, h'.workers, trivial⟩

/-- **Every step keeps the files in line with the index.** -/
theorem Filed.step [DecidableEq κ] {l : PipeEvent κ} (h : s.Filed F b) (hs : s.Sound env plain G F b)
    (hstep : Step env b s l b' s') : s'.Filed F b' := by
  have hw := hs.writes hstep
  cases hstep with
  | call hcall => cases hcall <;> exact ⟨h.indices, h.workers, h.flush⟩
  | saver hsaver => cases hsaver <;> exact ⟨h.indices, h.workers, h.flush⟩
  | worker hworker => exact h.workerStep hs hw hworker
  | flush hflush => exact h.flushStep hs hw hflush

/-- An index of which nothing is in a file. -/
theorem Filed.init {index : MasterIndex} (h : index.Unsaved) :
    (Pipe.init index : Pipe κ n).Filed F b := by
  refine ⟨fun ix hix fid hid => ?_, fun _ => trivial, trivial⟩
  rw [Index.id_eq_none (h ix hix)] at hid
  cases hid

/-- The IDs of the files that the index knows lie in `F`. -/
theorem Filed.mem_ids (h : s.Filed F b) {fid : ID} (hid : fid ∈ s.index.ids) : fid ∈ F := by
  rw [MasterIndex.ids, List.mem_toFinset, List.mem_filterMap] at hid
  obtain ⟨ix, hix, heq⟩ := hid
  split at heq
  · cases heq
  · exact (h.indices ix hix fid heq).1

/-- After a successful flush every entry is in a file. -/
theorem Filed.exists_file (h : s.Filed F b) (hsettled : s.Settled) (hflush : s.flush = .finished true)
    {e : ID × BlobLocator} (he : e ∈ s.index.entries) :
    ∃ fid f, fid ∈ F ∧ b.index.lookup fid = some f ∧ e ∈ f.entries := by
  obtain ⟨-, hcover⟩ := hsettled.flush [] (by rw [hflush]; rfl)
  obtain ⟨ix, hix, hmem⟩ := MasterIndex.mem_entries.mp he
  rcases hcover ix hix with hp | hnil | ⟨ix', hnone, _⟩
  · -- a persisted index has an ID, and the file with this ID has the entry
    unfold Index.isPersisted at hp
    cases hs : ix.status with
    | persisted fid =>
      obtain ⟨hF, f, hf, hall⟩ := h.indices ix hix fid (by rw [Index.id, hs])
      exact ⟨fid, f, hF, hf, hall e hmem⟩
    | pending | finalized =>
      rw [hs] at hp
      cases hp
  · rw [hnil] at hmem
    cases hmem
  · cases hnone

/-! ## A pipeline without calls -/

/-- No blob is anywhere in the pipeline. -/
structure Quiet (s : Pipe κ n) : Prop where
  callers : ∀ k, s.callers k = .idle
  queue : s.queue = []
  packers : ∀ t, (s.packers t).buffer = []
  saver : ∀ p next, s.saver ≠ .sending p next
  full : s.full = []
  workers : ∀ w, s.workers w = .waiting ∨ s.workers w = .exited

theorem Quiet.init (index : MasterIndex) : (Pipe.init index : Pipe κ n).Quiet where
  callers := fun _ => rfl
  queue := rfl
  packers := fun _ => rfl
  saver := fun _ _ h => (by cases h)
  full := rfl
  workers := fun _ => Or.inl rfl

theorem Quiet.callStep [DecidableEq κ] {k : κ} (h : s.Quiet) (hstep : CallStep env s (.caller k) s') :
    s'.Quiet ∧ s'.index = s.index := by
  have hidle := h.callers k
  cases hstep with
  | look =>
    -- looking at an idle caller leaves it idle
    have hsame : Function.update s.callers k (CallPhase.look env.toIndexEnv s.index (s.callers k)) =
        s.callers := by
      have hlook : CallPhase.look env.toIndexEnv s.index (s.callers k) = s.callers k := by
        rw [hidle]
        rfl
      rw [hlook, Function.update_eq_self]
    exact ⟨{ h with callers := fun k' => by rw [hsame]; exact h.callers k' }, rfl⟩
  | reject hk | clone _ hk | send hk | sendFail hk | insert hk | ret hk =>
    rw [hidle] at hk
    cases hk

theorem Quiet.saverStep (h : s.Quiet) (hstep : SaverStep env s s') :
    s'.Quiet ∧ s'.index = s.index := by
  have hnext : ∀ (next : SaverNext) (p : Packer) (next' : SaverNext),
      next.phase ≠ .sending p next' := by
    intro next p next'
    cases next <;> exact fun hp => by cases hp
  cases hstep with
  | start hs | startFail hs | close hs | disconnect hs | join hs =>
    exact ⟨{ h with saver := fun p next hp => (by cases hp) }, rfl⟩
  | dispatchEmpty hs hempty => exact ⟨{ h with saver := fun p next' => hnext _ p next' }, rfl⟩
  | skip hs hq | add hs hq | addFail hs hq =>
    rw [h.queue] at hq
    cases hq
  | take hs hne hpool => exact absurd (h.packers _) hne
  | send hs => exact absurd hs (h.saver _ _)

theorem Quiet.workerStep {l : PipeEvent κ} (h : s.Quiet) (hstep : WorkerStep env b s l b' s') :
    s'.Quiet ∧ s'.index = s.index := by
  -- a worker waits or has left
  have hidle : ∀ {w : Fin n} {p : WorkerPhase}, s.workers w = p → p = .waiting ∨ p = .exited :=
    fun hw => hw ▸ h.workers _
  cases hstep with
  | recv hw hfull =>
    rw [h.full] at hfull
    cases hfull
  | closed hw hfull hclosed =>
    refine ⟨{ h with workers := fun w' => ?_ }, rfl⟩
    dsimp only
    rw [Function.update_apply]
    split
    · exact Or.inr rfl
    · exact h.workers w'
  | abandon hw | finalize _ _ hw | finalizeEmpty _ _ hw | finalizeFail _ _ hw | giveEmptied hw
  | upload hw | uploadFail hw | register _ hw | persist _ hw | persistFail hw | mark hw | recycle hw
  | recycleClosed hw | fail hw | giveBack hw =>
    rcases hidle hw with hp | hp <;> cases hp

/-- A flush writes the index but does not change its entries. -/
theorem Quiet.flushStep {l : PipeEvent κ} (h : s.Quiet) (hstep : FlushStep b s l b' s') :
    s'.Quiet ∧ s'.index.entries = s.index.entries := by
  cases hstep with
  | joinOk hf hs => exact ⟨{ h with }, MasterIndex.entries_finalizeAll _⟩
  | mark hf => exact ⟨{ h with }, MasterIndex.entries_setPersisted _ _ _⟩
  | _ => exact ⟨{ h with }, rfl⟩

end Pipe

end Mapache
