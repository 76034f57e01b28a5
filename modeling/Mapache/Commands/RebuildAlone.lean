import Mapache.Commands.RebuildIndex

/-!
# What a rebuilt index says

`cmd_rebuild_index::run` without anyone else at work, on a repository whose packs were written by
the packer. The reloaded index then answers for exactly the blobs of the packs whose footers could
be read, and every answer is the position of such a blob (`rebuilt_index_eq_packs`). The command
goes on when an old index file cannot be deleted, and then the old entries are loaded beside the new
ones (`stale_index_survives`).
-/

set_option autoImplicit false

namespace Mapache

open Lib

/-! ## Runs of the command alone -/

/-- What a step of the command says about a pack or an index file. -/
inductive SoloEvent where
  | work
  /-- The footer of a pack was read, or the pack is skipped. -/
  | scan (p : ID) (r : Option (List PackedBlobDescriptor))
  /-- An index file could not be deleted. -/
  | deleteFail (fid : ID)
  /-- The command has succeeded. -/
  | done

/-- Every step from this phase is one of `RebuildPhase.Step` without a label of its own. -/
def RebuildPhase.Plain : RebuildPhase → Prop
  | .reading todo _ _ => todo = []
  | .deleting _ => False
  | _ => True

/-- A step of the command. Reading a footer may fail for any reason. -/
inductive SoloStep (env : Env) :
    Backend × RebuildPhase → SoloEvent → Backend × RebuildPhase → Prop where
  | work {b b' : Backend} {ph ph' : RebuildPhase} (hplain : ph.Plain)
      (hstep : RebuildPhase.Step env b ph b' ph') : SoloStep env (b, ph) .work (b', ph')
  | read {b : Backend} {p : ID} {todo old : List ID} {results : List ScanResult} {data : Bytes}
      {ds : List PackedBlobDescriptor} (hdata : b.packs.lookup p = some data)
      (hparse : Packer.parsePackFooter env.storage data = some ds) :
      SoloStep env (b, .reading (p :: todo) old results) (.scan p (some ds))
        (b, .reading todo old (results ++ [(p, some ds)]))
  | skip {b : Backend} {p : ID} {todo old : List ID} {results : List ScanResult} :
      SoloStep env (b, .reading (p :: todo) old results) (.scan p none)
        (b, .reading todo old (results ++ [(p, none)]))
  | delete {b : Backend} {fid : ID} {old : List ID} (hfid : fid ∈ old) :
      SoloStep env (b, .deleting old) .work (b.deleteIndex fid, .deleting (old.erase fid))
  | deleteFail {b : Backend} {fid : ID} {old : List ID} (hfid : fid ∈ old) :
      SoloStep env (b, .deleting old) (.deleteFail fid) (b, .deleting (old.erase fid))
  | done {b : Backend} : SoloStep env (b, .deleting []) .done (b, .finished)

/-- What the run has scanned. -/
def scanned (ls : List SoloEvent) : List ScanResult :=
  ls.filterMap fun
    | .scan p r => some (p, r)
    | _ => none

@[simp] theorem scanned_append (ls ls' : List SoloEvent) :
    scanned (ls ++ ls') = scanned ls ++ scanned ls' :=
  List.filterMap_append

theorem mem_scanned {ls : List SoloEvent} {p : ID} {r : Option (List PackedBlobDescriptor)} :
    (p, r) ∈ scanned ls ↔ .scan p r ∈ ls := by
  rw [scanned, List.mem_filterMap]
  constructor
  · rintro ⟨l, hl, heq⟩
    cases l with
    | scan p' r' =>
      cases heq
      exact hl
    | work | deleteFail | done => cases heq
  · exact fun h => ⟨_, h, rfl⟩

/-! ## The invariant -/

/-- The entry is that of a descriptor of a footer that was read. -/
def FromFooter (results : List ScanResult) (e : ID × BlobLocator) : Prop :=
  ∃ ds, (e.2.packId, some ds) ∈ results ∧ MasterIndex.descriptorOf e ∈ ds

/-- A footer that was read lists a blob with this ID and type. -/
def InFooters (results : List ScanResult) (id : ID) (t : BlobType) : Prop :=
  t ≠ .padding ∧ ∃ p ds d, (p, some ds) ∈ results ∧ d ∈ ds ∧ d.id = id ∧ d.blobType = t

/-- An index file outside `old` lists the blob with this type. -/
def Backend.IndexedAs (b : Backend) (old : List ID) (id : ID) (t : BlobType) : Prop :=
  ∃ fid f l, fid ∉ old ∧ b.index.lookup fid = some f ∧ (id, l) ∈ f.entries ∧ l.blobType = t

/-- Every index file is old or has only entries of footers. -/
def Backend.FilesFrom (b : Backend) (old : List ID) (results : List ScanResult) : Prop :=
  ∀ fid f, b.index.lookup fid = some f → fid ∈ old ∨ ∀ e ∈ f.entries, FromFooter results e

/-- Every pack was scanned or is still to be. -/
def Backend.Scans (b : Backend) (todo : List ID) (results : List ScanResult) : Prop :=
  ∀ p data, b.packs.lookup p = some data → p ∈ todo ∨ ∃ r, (p, r) ∈ results

/-- What the phase of the command says, given what was scanned. -/
def RebuildPhase.Solo (b : Backend) (results : List ScanResult) : RebuildPhase → Prop
  | .starting => results = []
  | .listed packs => results = [] ∧ b.Scans packs []
  | .reading todo old results' =>
    results' = results ∧ b.Scans todo results ∧ b.FilesFrom old results ∧ Stale b old
  | .persisting mi todo old =>
    b.Scans [] results ∧ b.FilesFrom old results ∧ Stale b old ∧ (∀ fid ∈ mi.ids, fid ∉ old) ∧
      (∀ ix ∈ todo, ∀ e ∈ ix.iterIds, FromFooter results e) ∧
      ∀ id t, InFooters results id t →
        (∃ ix ∈ todo, ∃ l, (id, l) ∈ ix.iterIds ∧ l.blobType = t) ∨ b.IndexedAs old id t
  | .deleting old =>
    b.Scans [] results ∧ b.FilesFrom old results ∧
      ∀ id t, InFooters results id t → b.IndexedAs old id t
  | .finished => True

/-- The packs are as they were, and the footers that were read are theirs. -/
structure SoloInv (env : Env) (b₀ : Backend) (ls : List SoloEvent) (s : Backend × RebuildPhase) :
    Prop where
  packs : s.1.packs = b₀.packs
  honest : ∀ p ds, (p, some ds) ∈ scanned ls → ∃ data, b₀.packs.lookup p = some data ∧
    Packer.parsePackFooter env.storage data = some ds
  phase : s.2.Solo s.1 (scanned ls)
  /-- What a run that has succeeded leaves. -/
  done : .done ∈ ls → s.2 = .finished ∧ s.1.Scans [] (scanned ls) ∧ s.1.FilesFrom [] (scanned ls) ∧
    ∀ id t, InFooters (scanned ls) id t → s.1.IndexedAs [] id t

section Steps

variable {env : Env} {b b' : Backend} {results : List ScanResult}

/-- The index made of the footers has their blobs and nothing else. -/
theorem solo_populate {old : List ID} (h : (RebuildPhase.reading [] old results).Solo b results) :
    (RebuildPhase.persisting (RebuildPhase.populate env.toIndexEnv results).finalizeAll
      (RebuildPhase.populate env.toIndexEnv results).toPersist old).Solo b results := by
  obtain ⟨-, hscans, hfiles, hstale⟩ := h
  have hunsaved : (RebuildPhase.populate env.toIndexEnv results).Unsaved :=
    RebuildPhase.unsaved_populate fun _ hix => by cases hix
  refine ⟨hscans, hfiles, hstale, ?_, ?_, ?_⟩
  · -- nothing is in a file yet
    intro fid hfid
    rw [MasterIndex.ids, List.mem_toFinset, List.mem_filterMap] at hfid
    obtain ⟨ix, hix, hid⟩ := hfid
    obtain ⟨ix₀, hix₀, rfl⟩ := MasterIndex.mem_indices_finalizeAll hix
    split at hid
    · cases hid
    · split at hid
      · cases hid
      · rw [Index.id_eq_none (hunsaved ix₀ hix₀)] at hid
        cases hid
  · rintro ix hix ⟨id, l⟩ he
    rcases RebuildPhase.mem_entries_populate (MasterIndex.mem_entries_of_toPersist hix he) with
      hnew | ⟨p, ds, d, hmem, hd, -, rfl, rfl⟩
    · cases hnew
    · exact ⟨ds, hmem, hd⟩
  · rintro id t ⟨hne, p, ds, d, hmem, hd, rfl, rfl⟩
    obtain ⟨l, hl, ht⟩ : ∃ l, (d.id, l) ∈ (RebuildPhase.populate env.toIndexEnv results).entries ∧
        l.blobType = d.blobType := RebuildPhase.populate_complete RebuildPhase.wf_newIndex hmem hd hne
    obtain ⟨ix, hix, hmem'⟩ := hunsaved.mem_toPersist hl
    exact Or.inl ⟨ix, hix, l, hmem', ht⟩

theorem mem_ids_setPersisted {mi : MasterIndex} {n : Nat} {fid fid' : ID}
    (h : fid' ∈ (mi.setPersisted n fid).ids) : fid' = fid ∨ fid' ∈ mi.ids := by
  rw [MasterIndex.ids, List.mem_toFinset, List.mem_filterMap] at h
  obtain ⟨ix, hix, hid⟩ := h
  rcases MasterIndex.mem_indices_setPersisted hix with hold | ⟨ix₀, _, _, rfl⟩
  · right
    rw [MasterIndex.ids, List.mem_toFinset, List.mem_filterMap]
    exact ⟨ix, hold, hid⟩
  · left
    split at hid
    · cases hid
    · exact (Option.some.inj hid).symm

/-- Writing an index moves its blobs into a file that is not old. -/
theorem solo_persist {mi : MasterIndex} {ix : Index} {todo : List Index} {old : List ID} {fid : ID}
    (h : (RebuildPhase.persisting mi (ix :: todo) old).Solo b results) (hfresh : b.Fresh fid) :
    (RebuildPhase.persisting (mi.setPersisted ix.instanceId fid) todo old).Solo
      (b.saveIndex fid ix.toFile) results := by
  obtain ⟨hscans, hfiles, hstale, hids, htodo, hcover⟩ := h
  have hnew : fid ∉ old := fun hmem => hstale fid hmem hfresh
  have hext := RebuildPhase.extends_saveIndex (f := ix.toFile) hfresh
  refine ⟨hscans, ?_, fun fid' hfid' => hext.stale fid' (hstale fid' hfid'), ?_,
    fun ix' hix' => htodo ix' (List.mem_cons_of_mem _ hix'), ?_⟩
  · intro fid' f hf
    rw [Backend.saveIndex, Table.lookup_insert_eq_ite] at hf
    split at hf
    · cases hf
      exact Or.inr fun e he => htodo ix List.mem_cons_self e (Index.mem_entries_toFile.mp he)
    · exact hfiles fid' f hf
  · intro fid' hfid'
    rcases mem_ids_setPersisted hfid' with rfl | hold
    · exact hnew
    · exact hids fid' hold
  · intro id t hid
    rcases hcover id t hid with ⟨ix', hix', l, hl, ht⟩ | ⟨fid', f, l, hF, hf, hl, ht⟩
    · rcases List.mem_cons.mp hix' with rfl | hmem
      · refine Or.inr ⟨fid, _, l, hnew, ?_, Index.mem_entries_toFile.mpr hl, ht⟩
        rw [Backend.saveIndex, AList.lookup_insert]
      · exact Or.inl ⟨ix', hmem, l, hl, ht⟩
    · refine Or.inr ⟨fid', f, l, hF, ?_, hl, ht⟩
      rw [hext.index fid' fun hfr => ?_]
      · exact hf
      · rw [hfr.2.1] at hf
        cases hf

/-- The steps without a label of their own keep what a phase says. -/
theorem solo_work {ph ph' : RebuildPhase} (h : ph.Solo b results) (hplain : ph.Plain)
    (hstep : RebuildPhase.Step env b ph b' ph') : ph'.Solo b' results ∧ b'.packs = b.packs := by
  cases hstep with
  | listPacks hpacks =>
    refine ⟨⟨h, fun p data hp => Or.inl ((hpacks p).mpr ?_)⟩, rfl⟩
    rw [hp]
    rfl
  | listIndices hold =>
    obtain ⟨hnil, hscans⟩ := h
    refine ⟨⟨hnil.symm, hnil ▸ hscans, fun fid f hf => Or.inl ((hold fid).mpr ?_),
      fun fid hfid hfresh => ?_⟩, rfl⟩
    · rw [hf]
      rfl
    · have hsome := (hold fid).mp hfid
      rw [hfresh.2.1] at hsome
      cases hsome
  | read => cases hplain
  | interrupt => exact ⟨trivial, rfl⟩
  | populate =>
    obtain ⟨rfl, hrest⟩ := h
    exact ⟨solo_populate ⟨rfl, hrest⟩, rfl⟩
  | persist fid hfresh => exact ⟨solo_persist h hfresh, rfl⟩
  | persistFail hfail =>
    rcases hfail with rfl | ⟨-, rfl⟩
    · exact ⟨trivial, rfl⟩
    · exact ⟨trivial, rfl⟩
  | @startDeleting mi old =>
    obtain ⟨hscans, hfiles, -, hids, -, hcover⟩ := h
    -- no old file has the name of a new one, so all of them are deleted
    have hall : old.filter (fun id => id ∉ mi.ids) = old := by
      rw [List.filter_eq_self]
      exact fun fid hfid => decide_eq_true fun hmem => hids fid hmem hfid
    rw [hall]
    refine ⟨⟨hscans, hfiles, fun id t hid => ?_⟩, rfl⟩
    rcases hcover id t hid with ⟨ix, hix, _⟩ | hindexed
    · cases hix
    · exact hindexed
  | delete | deleteFail | done => exact hplain.elim

/-- Deleting an old index file. -/
theorem solo_delete {fid : ID} {old : List ID} (h : (RebuildPhase.deleting old).Solo b results)
    (hfid : fid ∈ old) :
    (RebuildPhase.deleting (old.erase fid)).Solo (b.deleteIndex fid) results := by
  obtain ⟨hscans, hfiles, hcover⟩ := h
  have hlook : ∀ {fid' f}, (b.deleteIndex fid).index.lookup fid' = some f →
      fid' ≠ fid ∧ b.index.lookup fid' = some f := by
    intro fid' f hf
    rw [Backend.deleteIndex, Table.lookup_erase_eq_ite] at hf
    split at hf
    · cases hf
    · exact ⟨‹_›, hf⟩
  refine ⟨hscans, fun fid' f hf => ?_, fun id t hid => ?_⟩
  · obtain ⟨hne, hf⟩ := hlook hf
    exact (hfiles fid' f hf).imp_left fun hmem => (List.mem_erase_of_ne hne).mpr hmem
  · obtain ⟨fid', f, l, hF, hf, hrest⟩ := hcover id t hid
    refine ⟨fid', f, l, fun hmem => hF (List.mem_of_mem_erase hmem), ?_, hrest⟩
    rw [Backend.deleteIndex, Table.lookup_erase_eq_ite, if_neg, hf]
    rintro rfl
    exact hF hfid

/-- A scanned pack is off the list. -/
theorem solo_scan {p : ID} {todo old : List ID} {r : Option (List PackedBlobDescriptor)}
    (h : (RebuildPhase.reading (p :: todo) old results).Solo b results) :
    (RebuildPhase.reading todo old (results ++ [(p, r)])).Solo b (results ++ [(p, r)]) := by
  obtain ⟨-, hscans, hfiles, hstale⟩ := h
  refine ⟨rfl, fun q data hq => ?_, fun fid f hf => ?_, hstale⟩
  · rcases hscans q data hq with hmem | ⟨r', hr'⟩
    · rcases List.mem_cons.mp hmem with rfl | htail
      · exact Or.inr ⟨r, List.mem_append_right _ (List.mem_singleton_self _)⟩
      · exact Or.inl htail
    · exact Or.inr ⟨r', List.mem_append_left _ hr'⟩
  · refine (hfiles fid f hf).imp_right fun hall e he => ?_
    obtain ⟨ds, hds, hmem⟩ := hall e he
    exact ⟨ds, List.mem_append_left _ hds, hmem⟩

/-- **Every step keeps the invariant**, unless an index file cannot be deleted. -/
theorem SoloInv.step {b₀ : Backend} {ls : List SoloEvent} {l : SoloEvent}
    {s s' : Backend × RebuildPhase} (h : SoloInv env b₀ ls s) (hl : ∀ fid, l ≠ .deleteFail fid)
    (hstep : SoloStep env s l s') : SoloInv env b₀ (ls ++ [l]) s' := by
  -- the command does not go on after it has succeeded
  have hdone : s.2 ≠ .finished → SoloEvent.done ∉ ls := fun hne hmem => hne (h.done hmem).1
  have hnone : ∀ {l : SoloEvent}, .done ∉ ls → l ≠ .done → .done ∉ ls ++ [l] := by
    intro l hls hne hmem
    rcases List.mem_append.mp hmem with hold | hnew
    · exact hls hold
    · exact hne (List.mem_singleton.mp hnew).symm
  obtain ⟨hpacks, hhonest, hphase, -⟩ := h
  cases hstep with
  | @work b b' ph ph' hplain hwork =>
    have hne : ph ≠ .finished := by
      rintro rfl
      cases hwork
    obtain ⟨hphase', hpacks'⟩ := solo_work hphase hplain hwork
    have hscan : scanned (ls ++ [.work]) = scanned ls := by
      rw [scanned_append]
      exact List.append_nil _
    exact ⟨hpacks'.trans hpacks, by rwa [hscan], by rwa [hscan],
      fun hmem => absurd hmem (hnone (hdone hne) fun h => by cases h)⟩
  | @read b p todo old results data ds hdata hparse =>
    have hresults : results = scanned ls := hphase.1
    subst hresults
    refine ⟨hpacks, fun q ds' hq => ?_, ?_,
      fun hmem => absurd hmem (hnone (hdone fun h => by cases h) fun h => by cases h)⟩
    · rw [scanned_append] at hq
      rcases List.mem_append.mp hq with hold | hnew
      · exact hhonest q ds' hold
      · cases List.mem_singleton.mp hnew
        exact ⟨data, hpacks ▸ hdata, hparse⟩
    · rw [scanned_append]
      exact solo_scan hphase
  | @skip b p todo old results =>
    have hresults : results = scanned ls := hphase.1
    subst hresults
    refine ⟨hpacks, fun q ds' hq => ?_, ?_,
      fun hmem => absurd hmem (hnone (hdone fun h => by cases h) fun h => by cases h)⟩
    · rw [scanned_append] at hq
      rcases List.mem_append.mp hq with hold | hnew
      · exact hhonest q ds' hold
      · cases List.mem_singleton.mp hnew
    · rw [scanned_append]
      exact solo_scan hphase
  | @delete b fid old hfid =>
    have hscan : scanned (ls ++ [.work]) = scanned ls := by
      rw [scanned_append]
      exact List.append_nil _
    exact ⟨hpacks, by rwa [hscan], by rw [hscan]; exact solo_delete hphase hfid,
      fun hmem => absurd hmem (hnone (hdone fun h => by cases h) fun h => by cases h)⟩
  | deleteFail hfid => exact absurd rfl (hl _)
  | done =>
    have hscan : scanned (ls ++ [.done]) = scanned ls := by
      rw [scanned_append]
      exact List.append_nil _
    refine ⟨hpacks, by rwa [hscan], trivial, fun _ => ?_⟩
    rw [hscan]
    exact ⟨rfl, hphase⟩

end Steps

/-! ## The rebuilt index -/

/-- The packer wrote these blobs as this pack. -/
def WrittenBy (env : Env) (adds : List AddedBlob) (data : Bytes) : Prop :=
  ∃ nonce rand pack, FinalizesTo env.storage env.fromContent nonce rand adds (some pack) ∧
    pack.data = data

/-- All packs were written by the packer. -/
def Backend.Packed (env : Env) (b : Backend) : Prop :=
  ∀ p data, b.packs.lookup p = some data → ∃ adds, WrittenBy env adds data

/-- The lookup for a type: `MasterIndex::get_data` or `MasterIndex::get_tree`. -/
def MasterIndex.getOfType (env : IndexEnv) (mi : MasterIndex) (t : BlobType) (id : ID) :
    Option BlobLocator :=
  match t with
  | .data => mi.getData env id
  | .tree => mi.getTree env id
  | .padding => none

/-- The locator is the position of a blob with the ID in a pack that the packer wrote. -/
def Backend.Locates (env : Env) (b : Backend) (id : ID) (l : BlobLocator) : Prop :=
  ∃ data adds, b.packs.lookup l.packId = some data ∧ WrittenBy env adds data ∧
    MasterIndex.descriptorOf (id, l) ∈ describeFrom 0 adds

section Rebuilt

variable {env : Env} {b₀ b : Backend} {ls : List SoloEvent}

/-- A footer that can be read lists the blobs of the pack. -/
theorem WrittenBy.eq_describeFrom {adds : List AddedBlob} {data : Bytes}
    {ds : List PackedBlobDescriptor} (hauth : env.storage.RejectsSuffixes)
    (h : WrittenBy env adds data)
    (hparse : Packer.parsePackFooter env.storage data = some ds) : ds = describeFrom 0 adds := by
  obtain ⟨nonce, rand, pack, hfin, rfl⟩ := h
  rw [Packer.parsePackFooter_eq_parseFooter] at hparse
  by_cases hfits : FooterFits env.storage nonce rand adds
  · rw [hfin.parseFooter hfits] at hparse
    exact (Option.some.inj hparse).symm
  · rw [hfin.parseFooter_eq_none hauth hfits] at hparse
    cases hparse

theorem MasterIndex.mem_of_getOfType {ienv : IndexEnv} {mi : MasterIndex} {t : BlobType} {id : ID}
    {l : BlobLocator} (h : mi.getOfType ienv t id = some l) : (id, l) ∈ mi.entries ∧
    l.blobType = t := by
  cases t with
  | data => exact MasterIndex.mem_of_getData h
  | tree => exact MasterIndex.mem_of_getTree h
  | padding => cases h

theorem MasterIndex.getOfType_isSome {ienv : IndexEnv} {mi : MasterIndex} {id : ID} {l : BlobLocator}
    (h : (id, l) ∈ mi.entries) : (mi.getOfType ienv l.blobType id).isSome = true := by
  cases ht : l.blobType with
  | data => exact MasterIndex.getData_isSome h ht
  | tree => exact MasterIndex.getTree_isSome h ht
  | padding =>
    obtain ⟨ix, _, hmem⟩ := MasterIndex.mem_entries.mp h
    exact absurd ht (Index.blobType_ne_padding hmem)

theorem soloInv_run {s : Backend × RebuildPhase} (hrun : Run (SoloStep env) (b₀, .starting) ls s)
    (hdel : ∀ fid, .deleteFail fid ∉ ls) : SoloInv env b₀ ls s := by
  induction hrun with
  | nil => exact ⟨rfl, fun _ _ h => (by cases h), rfl, fun h => (by cases h)⟩
  | @snoc ls t u l hrun hstep ih =>
    refine SoloInv.step (ih fun fid hmem => hdel fid (List.mem_append_left _ hmem)) ?_ hstep
    rintro fid rfl
    exact hdel fid (List.mem_append_right _ (List.mem_singleton_self _))

/-- **A rebuilt index is equivalent to the packs.** When the command has succeeded and every old
index file could be deleted, a reloaded index answers for every blob of every pack that was not
skipped, and every answer of any lookup is the position of a blob in a pack whose footer was read.
-/
theorem rebuilt_index_eq_packs (hauth : env.storage.RejectsSuffixes) (hpacked : b₀.Packed env)
    {ph : RebuildPhase} (hrun : Run (SoloStep env) (b₀, .starting) ls (b, ph)) (hdone : .done ∈ ls)
    (hdel : ∀ fid, .deleteFail fid ∉ ls) (num : b.Instances) :
    (∀ p data adds, b₀.packs.lookup p = some data → WrittenBy env adds data → .scan p none ∉ ls →
      ∀ d ∈ describeFrom 0 adds,
        (∃ l, (b.reloadMasterIndex env.toIndexEnv num).get env.toIndexEnv d.id = some l) ∧
        ∃ l, (b.reloadMasterIndex env.toIndexEnv num).getOfType env.toIndexEnv d.blobType d.id =
          some l ∧ l.blobType = d.blobType) ∧
      ∀ id l, ((b.reloadMasterIndex env.toIndexEnv num).get env.toIndexEnv id = some l ∨
          ∃ t, (b.reloadMasterIndex env.toIndexEnv num).getOfType env.toIndexEnv t id = some l) →
        (∃ ds, .scan l.packId (some ds) ∈ ls) ∧ b₀.Locates env id l ∧ b.packs = b₀.packs := by
  obtain ⟨hpacks, hhonest, -, hfinal⟩ := soloInv_run hrun hdel
  obtain ⟨-, hscans, hfiles, hcover⟩ := hfinal hdone
  constructor
  · intro p data adds hp hwritten hskip d hd
    -- the pack was scanned, and what was read are its blobs
    obtain ⟨r, hr⟩ : ∃ r, (p, r) ∈ scanned ls := by
      rcases hscans p data (by rw [hpacks]; exact hp) with hnil | hr
      · cases hnil
      · exact hr
    cases r with
    | none => exact absurd (mem_scanned.mp hr) hskip
    | some ds =>
      obtain ⟨data', hp', hparse⟩ := hhonest p ds hr
      rw [hp] at hp'
      cases hp'
      have hds := hwritten.eq_describeFrom hauth hparse
      have hne : d.blobType ≠ .padding := by
        obtain ⟨_, _, _, ⟨htypes, -⟩, -⟩ := hwritten
        exact describeFrom_types 0 htypes d hd
      obtain ⟨fid, f, l, -, hf, hl, ht⟩ := hcover d.id d.blobType
        ⟨hne, p, ds, d, hr, hds ▸ hd, rfl, rfl⟩
      have hmem : (d.id, l) ∈ (b.reloadMasterIndex env.toIndexEnv num).entries :=
        Backend.mem_entries_reload.mpr ⟨fid, f, hf, hl⟩
      refine ⟨Option.isSome_iff_exists.mp (MasterIndex.get_isSome hmem), ?_⟩
      obtain ⟨l', hl'⟩ := Option.isSome_iff_exists.mp (MasterIndex.getOfType_isSome hmem)
      rw [ht] at hl'
      exact ⟨l', hl', (MasterIndex.mem_of_getOfType hl').2⟩
  · intro id l hget
    have hmem : (id, l) ∈ (b.reloadMasterIndex env.toIndexEnv num).entries := by
      rcases hget with hget | ⟨t, hget⟩
      · exact MasterIndex.mem_of_get hget
      · exact (MasterIndex.mem_of_getOfType hget).1
    obtain ⟨fid, f, hf, hl⟩ := Backend.mem_entries_reload.mp hmem
    rcases hfiles fid f hf with hnil | hall
    · cases hnil
    · obtain ⟨ds, hr, hd⟩ := hall (id, l) hl
      obtain ⟨data, hp, hparse⟩ := hhonest l.packId ds hr
      obtain ⟨adds, hwritten⟩ := hpacked l.packId data hp
      refine ⟨⟨ds, mem_scanned.mp hr⟩, ⟨data, adds, hp, hwritten, ?_⟩, hpacks⟩
      exact hwritten.eq_describeFrom hauth hparse ▸ hd

end Rebuilt

/-! ## Concrete runs -/

/-- The concrete parameters with a storage that rejects incomplete texts. -/
def markedEnv : Env := { sampleEnv with storage := markedStorage, fromContent := fun _ => 7 }

/-- A repository with one pack and no index. -/
def onePackBackend (data : Bytes) : Backend := ⟨AList.insert 9 data ∅, ∅, ∅, ∅⟩

theorem lookup_onePackBackend {data data' : Bytes} {p : ID}
    (h : (onePackBackend data).packs.lookup p = some data') : p = 9 ∧ data' = data := by
  rw [onePackBackend, Table.lookup_insert_eq_ite] at h
  split at h
  · exact ⟨‹_›, (Option.some.inj h).symm⟩
  · cases h

/-- The pack of one blob is found again. -/
theorem sample_rebuilt_index : ∃ (b₀ b : Backend) (ls : List SoloEvent) (ph : RebuildPhase),
    Run (SoloStep markedEnv) (b₀, .starting) ls (b, ph) ∧ .done ∈ ls ∧
      ∀ num : b.Instances, ∃ l, (b.reloadMasterIndex markedEnv.toIndexEnv num).get
        markedEnv.toIndexEnv 5 = some l ∧ b₀.Locates markedEnv 5 l := by
  obtain ⟨pack, hfin⟩ := finalizesTo_sample
  have hwritten : WrittenBy markedEnv [⟨5, .data, [0, 1, 2], 1⟩] pack.data :=
    ⟨sampleNonce, fun _ => ⟨9, .padding, 0, 0, 0⟩, pack, hfin, rfl⟩
  have hparse : Packer.parsePackFooter markedEnv.storage pack.data = some [⟨5, .data, 0, 3, 1⟩] := by
    rw [Packer.parsePackFooter_eq_parseFooter]
    exact hfin.parseFooter footerFits_sample
  have hpacked : (onePackBackend pack.data).Packed markedEnv := by
    intro p data hp
    rw [(lookup_onePackBackend hp).2]
    exact ⟨_, hwritten⟩
  have h₁ : Run (SoloStep markedEnv) (onePackBackend pack.data, .starting) ([] ++ [.work])
      (onePackBackend pack.data, .listed [9]) := by
    refine .snoc .nil (.work trivial (.listPacks fun p => ?_))
    rw [List.mem_singleton]
    constructor
    · rintro rfl
      rfl
    · intro hsome
      obtain ⟨data, hdata⟩ := Option.isSome_iff_exists.mp hsome
      exact (lookup_onePackBackend hdata).1
  have h₂ := h₁.snoc (.work trivial (.listIndices fun fid =>
    (⟨fun h => (by cases h), fun h => (by cases h)⟩ :
      fid ∈ [] ↔ ((onePackBackend pack.data).index.lookup fid).isSome = true)))
  have h₃ := h₂.snoc (.read (p := 9) rfl hparse)
  have h₄ := h₃.snoc (.work rfl .populate)
  have h₅ := h₄.snoc (.work trivial (.persist 7 ⟨rfl, rfl, Finset.notMem_empty _⟩))
  have h₆ := h₅.snoc (.work trivial .startDeleting)
  have h₇ := h₆.snoc .done
  refine ⟨_, _, _, _, h₇, by simp, fun num => ?_⟩
  obtain ⟨hcomplete, hsound⟩ := rebuilt_index_eq_packs rejectsSuffixes_markedStorage hpacked h₇
    (by simp) (by simp) num
  obtain ⟨⟨l, hl⟩, -⟩ := hcomplete 9 pack.data _ rfl hwritten (by simp) _ List.mem_cons_self
  exact ⟨l, hl, (hsound 5 l (Or.inl hl)).2.1⟩

/-- A repository without packs whose index lists a blob. -/
def staleBackend : Backend := ⟨∅, AList.insert 3 ⟨[⟨9, [⟨5, .data, 0, 3, 1⟩]⟩]⟩ ∅, ∅, ∅⟩

theorem lookup_staleBackend {fid : ID} {f : IndexFile} (h : staleBackend.index.lookup fid = some f) :
    fid = 3 := by
  rw [staleBackend, Table.lookup_insert_eq_ite] at h
  split at h
  · assumption
  · cases h

/-- There is one file to number. -/
def staleInstances : staleBackend.Instances where
  inst := fun _ => 0
  next := 1
  inj := fun _ _ _ _ hi hj _ => (lookup_staleBackend hi).trans (lookup_staleBackend hj).symm
  lt := fun _ _ _ => Nat.one_pos

/-- An index file whose deletion fails is loaded again, with entries that no pack has. -/
theorem stale_index_survives : staleBackend.Packed markedEnv ∧ ∃ ls,
    Run (SoloStep markedEnv) (staleBackend, .starting) ls (staleBackend, .finished) ∧ .done ∈ ls ∧
      ∃ l, (staleBackend.reloadMasterIndex markedEnv.toIndexEnv staleInstances).get
        markedEnv.toIndexEnv 5 = some l ∧ ¬ staleBackend.Locates markedEnv 5 l := by
  have h₁ : Run (SoloStep markedEnv) (staleBackend, .starting) ([] ++ [.work])
      (staleBackend, .listed []) :=
    .snoc .nil (.work trivial (.listPacks fun p => ⟨fun h => (by cases h), fun h => (by cases h)⟩))
  have h₂ : Run (SoloStep markedEnv) (staleBackend, .starting) ([] ++ [.work] ++ [.work])
      (staleBackend, .reading [] [3] []) := by
    refine h₁.snoc (.work trivial (.listIndices fun fid => ?_))
    rw [List.mem_singleton]
    constructor
    · rintro rfl
      rfl
    · intro hsome
      obtain ⟨f, hf⟩ := Option.isSome_iff_exists.mp hsome
      exact lookup_staleBackend hf
  have h₃ := h₂.snoc (.work rfl .populate)
  have h₄ := h₃.snoc (.work trivial .startDeleting)
  have h₅ := h₄.snoc (.deleteFail (List.mem_cons_self : (3 : ID) ∈ [3]))
  have h₆ := h₅.snoc .done
  refine ⟨fun p data hp => (by cases hp), _, h₆, by simp, ⟨9, 0, 3, 1, .data⟩, rfl, ?_⟩
  rintro ⟨data, adds, hdata, -⟩
  cases hdata

end Mapache
