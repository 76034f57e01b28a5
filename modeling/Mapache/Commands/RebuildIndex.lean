import Mapache.Commands.Snapshot
import Mapache.Repository.Footers

/-!
# The rebuild-index command

`cmd_rebuild_index::run` beside any number of clients that run the snapshot command; both take only
a non-exclusive lock. The command lists the packs, lists the index files, reads the footers of the
packs, writes a new index and deletes the index files it has listed. An index file that a backup
writes between the two listings is deleted although the packs it refers to were not scanned, and the
snapshot of that backup is lost (`rebuild_deletes_index_of_backup`). Where no index file refers to a
pack that is not in the list, every snapshot stays complete (`rebuild_keeps_snapshots`).
-/

set_option autoImplicit false

namespace Mapache

open Lib

/-- What a footer said, for each pack that was read. -/
abbrev ScanResult := ID × Option (List PackedBlobDescriptor)

/-- Where the command stands. -/
inductive RebuildPhase where
  | starting
  /-- The packs are listed. -/
  | listed (packs : List ID)
  /-- Reading the footers of `todo`, to replace the index files `old`. -/
  | reading (todo old : List ID) (results : List ScanResult)
  /-- `MasterIndex::persist` is about to write the first of `todo`. -/
  | persisting (index : MasterIndex) (todo : List Index) (old : List ID)
  /-- Deleting the index files `old`. -/
  | deleting (old : List ID)
  | finished

namespace RebuildPhase

/-- One turn of the loop that fills the new index. A pack whose footer cannot be read is skipped. -/
def addResult (env : IndexEnv) (mi : MasterIndex) (result : ScanResult) : MasterIndex :=
  match result.2 with
  | some ds => (mi.addPackLocked env result.1 ds false).1
  | none => mi

/-- The new index, before it is written. It is not saved while it is filled. -/
def populate (env : IndexEnv) (results : List ScanResult) : MasterIndex :=
  results.foldl (addResult env) { MasterIndex.new with autoSave := false }

/-- A step of the command. -/
inductive Step (env : Env) : Backend → RebuildPhase → Backend → RebuildPhase → Prop where
  | listPacks {b : Backend} {packs : List ID} : (∀ p, p ∈ packs ↔ (b.packs.lookup p).isSome = true) →
      Step env b .starting b (.listed packs)
  | listIndices {b : Backend} {packs old : List ID} :
      (∀ fid, fid ∈ old ↔ (b.index.lookup fid).isSome = true) →
      Step env b (.listed packs) b (.reading packs old [])
  | read {b : Backend} {p : ID} {todo old : List ID} {results : List ScanResult} :
      Step env b (.reading (p :: todo) old results) b
        (.reading todo old
          (results ++ [(p, (b.packs.lookup p).bind (Packer.parsePackFooter env.storage))]))
  | interrupt {b : Backend} {old : List ID} {results : List ScanResult} :
      Step env b (.reading [] old results) b .finished
  | populate {b : Backend} {old : List ID} {results : List ScanResult} :
      Step env b (.reading [] old results) b
        (.persisting (populate env.toIndexEnv results).finalizeAll
          (populate env.toIndexEnv results).toPersist old)
  | persist {b : Backend} {mi : MasterIndex} {ix : Index} {todo : List Index} {old : List ID}
      (fid : ID) : b.Fresh fid →
      Step env b (.persisting mi (ix :: todo) old) (b.saveIndex fid ix.toFile)
        (.persisting (mi.setPersisted ix.instanceId fid) todo old)
  | persistFail {b b' : Backend} {mi : MasterIndex} {ix : Index} {todo : List Index} {old : List ID}
      {fid : ID} : Pipe.FailedWrite b fid (b.saveIndex fid ix.toFile) b' →
      Step env b (.persisting mi (ix :: todo) old) b' .finished
  | startDeleting {b : Backend} {mi : MasterIndex} {old : List ID} :
      Step env b (.persisting mi [] old) b (.deleting (old.filter fun id => id ∉ mi.ids))
  | delete {b : Backend} {fid : ID} {old : List ID} : fid ∈ old →
      Step env b (.deleting old) (b.deleteIndex fid) (.deleting (old.erase fid))
  /-- A failed deletion is only reported. -/
  | deleteFail {b : Backend} {fid : ID} {old : List ID} : fid ∈ old →
      Step env b (.deleting old) b (.deleting (old.erase fid))
  | done {b : Backend} : Step env b (.deleting []) b .finished

/-! ## The new index -/

section Populate

variable {env : IndexEnv} {results : List ScanResult} {mi : MasterIndex}

/-- Every entry of the new index comes from a footer. -/
theorem mem_entries_populate {id : ID} {l : BlobLocator}
    (h : (id, l) ∈ (results.foldl (addResult env) mi).entries) :
    (id, l) ∈ mi.entries ∨
      ∃ p ds d, (p, some ds) ∈ results ∧ d ∈ ds ∧ d.blobType ≠ .padding ∧ id = d.id ∧
        l = d.locator p := by
  induction results generalizing mi with
  | nil => exact Or.inl h
  | cons result results ih =>
    rw [List.foldl_cons] at h
    rcases ih h with hmem | ⟨p, ds, d, hmem, hd⟩
    · obtain ⟨p, r⟩ := result
      cases r with
      | none => exact Or.inl hmem
      | some ds =>
        rcases MasterIndex.mem_entries_addPackLocked hmem with hold | ⟨d, hd, hrest⟩
        · exact Or.inl hold
        · exact Or.inr ⟨p, ds, d, List.mem_cons_self, hd, hrest⟩
    · exact Or.inr ⟨p, ds, d, List.mem_cons_of_mem _ hmem, hd⟩

/-- A blob that is in the index stays there with its type. -/
theorem populate_keeps {id : ID} {l : BlobLocator} (h : (id, l) ∈ mi.entries) :
    ∃ l', (id, l') ∈ (results.foldl (addResult env) mi).entries ∧ l'.blobType = l.blobType := by
  induction results generalizing mi l with
  | nil => exact ⟨l, h, rfl⟩
  | cons result results ih =>
    obtain ⟨p, r⟩ := result
    rw [List.foldl_cons]
    cases r with
    | none => exact ih h
    | some ds =>
      obtain ⟨l', hl', ht'⟩ := MasterIndex.addPackLocked_complete env p ds false h
      obtain ⟨l'', hl'', ht''⟩ := ih hl'
      exact ⟨l'', hl'', ht''.trans ht'⟩

theorem wf_addResult (h : mi.WF) (result : ScanResult) : (addResult env mi result).WF := by
  obtain ⟨p, r⟩ := result
  cases r with
  | none => exact h
  | some ds => exact h.addPackLocked env p ds false

/-- Every blob that a footer lists is in the new index with its type. -/
theorem populate_complete (hwf : mi.WF) {p : ID} {ds : List PackedBlobDescriptor}
    {d : PackedBlobDescriptor} (h : (p, some ds) ∈ results) (hd : d ∈ ds)
    (hne : d.blobType ≠ .padding) :
    ∃ l, (d.id, l) ∈ (results.foldl (addResult env) mi).entries ∧ l.blobType = d.blobType := by
  induction results generalizing mi with
  | nil => cases h
  | cons result results ih =>
    rw [List.foldl_cons]
    rcases List.mem_cons.mp h with rfl | hmem
    · obtain ⟨l, hl, ht⟩ := MasterIndex.addPackLocked_self hwf.isMutable env p false hd hne
      obtain ⟨l', hl', ht'⟩ := populate_keeps hl
      exact ⟨l', hl', ht'.trans ht⟩
    · exact ih (wf_addResult hwf result) hmem

theorem wf_newIndex : MasterIndex.WF { MasterIndex.new with autoSave := false } := by
  have hwf := MasterIndex.WF.new
  exact ⟨hwf.isMutable, hwf.nodup, hwf.drawn, hwf.bloom⟩

/-- The new index is in no file before it is written. -/
theorem unsaved_populate (h : mi.Unsaved) : (results.foldl (addResult env) mi).Unsaved := by
  induction results generalizing mi with
  | nil => exact h
  | cons result results ih =>
    rw [List.foldl_cons]
    refine ih ?_
    obtain ⟨p, r⟩ := result
    cases r with
    | none => exact h
    | some ds => exact h.addPackLocked env p ds false

end Populate

/-! ## The invariant of the command -/

section Inv

variable {env : Env} {plain : ID → Bytes} {b b' : Backend}

/-- Every blob of the index files `old` satisfies `P`. -/
def Covers (b : Backend) (old : List ID) (P : ID × BlobLocator → Prop) : Prop :=
  ∀ fid ∈ old, ∀ f, b.index.lookup fid = some f → ∀ e ∈ f.entries, P e

/-- No file is ever written again under the ID of an index file that was listed. -/
def Stale (b : Backend) (old : List ID) : Prop := ∀ fid ∈ old, ¬ b.Fresh fid

/-- The invariant of the command. A blob of an old index file lies in a pack that is still to be
read or was read; then it is in an index that is still to be written, or in a file that is not old.
-/
def Inv (env : Env) (b : Backend) : RebuildPhase → Prop
  | .starting | .finished => True
  | .listed packs => ∀ p ∈ packs, ∃ data, b.packs.lookup p = some data
  | .reading todo old results =>
    (∀ p ∈ todo, ∃ data, b.packs.lookup p = some data) ∧
    (∀ p r, (p, r) ∈ results → ∃ data, b.packs.lookup p = some data ∧
      r = Packer.parsePackFooter env.storage data) ∧
    Stale b old ∧ Covers b old fun e => e.2.packId ∈ todo ∨ ∃ r, (e.2.packId, r) ∈ results
  | .persisting _ todo old =>
    (∀ ix ∈ todo, ∀ e ∈ ix.iterIds, b.Listed env e) ∧ Stale b old ∧
    Covers b old fun e => (∃ ix ∈ todo, ∃ l, (e.1, l) ∈ ix.iterIds) ∨
      b.Indexed { fid | fid ∉ old } e.1
  | .deleting old => Stale b old ∧ Covers b old fun e => b.Indexed { fid | fid ∉ old } e.1

/-- The packs and the index files stay, and what is written goes to fresh IDs. -/
structure Extends (b b' : Backend) : Prop where
  packs : ∀ p data, b.packs.lookup p = some data → b'.packs.lookup p = some data
  index : ∀ fid, ¬ b.Fresh fid → b'.index.lookup fid = b.index.lookup fid
  stale : ∀ fid, ¬ b.Fresh fid → ¬ b'.Fresh fid

theorem Extends.listed {e : ID × BlobLocator} (h : Extends b b') (he : b.Listed env e) :
    b'.Listed env e := by
  obtain ⟨data, ds, hdata, hds, hmem⟩ := he
  exact ⟨data, ds, h.packs _ data hdata, hds, hmem⟩

theorem Extends.indexed {F : Set ID} {id : ID} (h : Extends b b') (hid : b.Indexed F id) :
    b'.Indexed F id := by
  obtain ⟨fid, f, l, hF, hf, hl⟩ := hid
  refine ⟨fid, f, l, hF, ?_, hl⟩
  rw [h.index fid fun hfresh => ?_]
  · exact hf
  · rw [hfresh.2.1] at hf
    cases hf

theorem Extends.covers {old : List ID} {P Q : ID × BlobLocator → Prop} (h : Extends b b')
    (hold : Stale b old) (hc : Covers b old P) (hPQ : ∀ e, P e → Q e) : Covers b' old Q := by
  intro fid hfid f hf e he
  rw [h.index fid (hold fid hfid)] at hf
  exact hPQ e (hc fid hfid f hf e he)

/-- Work that leaves the packs and the index files alone keeps the invariant. -/
theorem Inv.extends {phase : RebuildPhase} (h : phase.Inv env b) (hb : Extends b b') :
    phase.Inv env b' := by
  have hpack : ∀ {p : ID}, (∃ data, b.packs.lookup p = some data) →
      ∃ data, b'.packs.lookup p = some data := fun ⟨data, hdata⟩ => ⟨data, hb.packs _ data hdata⟩
  have hstale : ∀ {old : List ID}, Stale b old → Stale b' old :=
    fun h fid hfid => hb.stale fid (h fid hfid)
  cases phase with
  | starting | finished => trivial
  | listed packs => exact fun p hp => hpack (h p hp)
  | reading todo old results =>
    obtain ⟨htodo, hresults, hold, hcover⟩ := h
    refine ⟨fun p hp => hpack (htodo p hp), fun p r hr => ?_, hstale hold,
      hb.covers hold hcover fun _ h => h⟩
    obtain ⟨data, hdata, hparse⟩ := hresults p r hr
    exact ⟨data, hb.packs p data hdata, hparse⟩
  | persisting mi todo old =>
    obtain ⟨htodo, hold, hcover⟩ := h
    exact ⟨fun ix hix e he => hb.listed (htodo ix hix e he), hstale hold,
      hb.covers hold hcover fun e he => he.imp_right hb.indexed⟩
  | deleting old => exact ⟨hstale h.1, hb.covers h.1 h.2 fun e he => hb.indexed he⟩

/-- The step is not the listing of the index files, or every pack that an index file refers to is
already in the list of the packs. -/
def Covered (b : Backend) : RebuildPhase → Prop
  | .listed packs => ∀ fid f, b.index.lookup fid = some f → ∀ e ∈ f.entries, e.2.packId ∈ packs
  | _ => True

theorem extends_saveIndex {fid : ID} {f : IndexFile} (h : b.Fresh fid) :
    Extends b (b.saveIndex fid f) := by
  refine ⟨fun _ _ hp => hp, fun fid' hstale => ?_, fun fid' hstale hfresh => hstale ?_⟩
  · rw [Backend.saveIndex, Table.lookup_insert_eq_ite, if_neg]
    rintro rfl
    exact hstale h
  · exact (Backend.keeps_saveIndex (F := Set.univ) h).fresh fid' hfresh

/-- Fewer old files are still covered by the files that are not old. -/
theorem covers_subset {old old' : List ID}
    (h : Covers b old fun e => b.Indexed { fid | fid ∉ old } e.1)
    (hsub : ∀ fid ∈ old', fid ∈ old) : Covers b old' fun e => b.Indexed { fid | fid ∉ old' } e.1 := by
  intro fid hfid f hf e he
  obtain ⟨fid', f', l, hF, hrest⟩ := h fid (hsub fid hfid) f hf e he
  exact ⟨fid', f', l, fun hmem => hF (hsub fid' hmem), hrest⟩

/-- The index that was made of the footers covers the old index files. -/
theorem Inv.populate {old : List ID} {results : List ScanResult} (hb : b.Footed env plain)
    (h : (reading [] old results).Inv env b) :
    (persisting (populate env.toIndexEnv results).finalizeAll
      (populate env.toIndexEnv results).toPersist old).Inv env b := by
  obtain ⟨-, hresults, hold, hcover⟩ := h
  refine ⟨?_, hold, ?_⟩
  · rintro ix hix ⟨id, l⟩ he
    rcases mem_entries_populate (MasterIndex.mem_entries_of_toPersist hix he) with hnew | hread
    · cases hnew
    · obtain ⟨p, ds, d, hmem, hd, -, rfl, rfl⟩ := hread
      obtain ⟨data, hdata, hparse⟩ := hresults p _ hmem
      exact ⟨data, ds, hdata, hparse.symm, hd⟩
  · intro fid hfid f hf e he
    left
    -- the footer of the entry's pack was read, and it lists the entry
    obtain ⟨data, ds, hdata, hds, hmem⟩ := hb.entries fid f hf e he
    have hread : (e.2.packId, some ds) ∈ results := by
      rcases hcover fid hfid f hf e he with hnil | ⟨r, hr⟩
      · cases hnil
      · obtain ⟨data', hdata', rfl⟩ := hresults _ r hr
        rw [hdata] at hdata'
        cases hdata'
        rw [hds] at hr
        exact hr
    have hne : (MasterIndex.descriptorOf e).blobType ≠ .padding := by
      obtain ⟨ds', hds', hslices⟩ := hb.packs _ data hdata
      rw [hds] at hds'
      cases hds'
      exact (hslices _ hmem).1
    obtain ⟨l, hl, -⟩ := populate_complete wf_newIndex hread hmem hne
    obtain ⟨ix, hix, hix'⟩ := (unsaved_populate fun _ hix => by cases hix).mem_toPersist hl
    exact ⟨ix, hix, l, hix'⟩

theorem footed_deleteIndex {fid : ID} (h : b.Footed env plain) :
    (b.deleteIndex fid).Footed env plain := by
  refine ⟨h.packs, fun fid' f hf e he => ?_⟩
  rw [Backend.lookup_deleteIndex] at hf
  split at hf
  · cases hf
  · exact h.entries fid' f hf e he

/-- Deleting an old index file keeps every blob listed, since the other files cover it. -/
theorem keeps_deleteIndex {fid : ID} {old : List ID} (hfid : fid ∈ old)
    (hcover : Covers b old fun e => b.Indexed { fid | fid ∉ old } e.1) :
    Backend.Keeps Set.univ b (b.deleteIndex fid) := by
  refine ⟨fun _ _ hp => hp, ?_, ?_⟩
  · rintro id ⟨fid', f, l, -, hf, hl⟩
    by_cases heq : fid' = fid
    · subst heq
      obtain ⟨fid₁, f₁, l₁, -, h₁⟩ := Backend.indexed_deleteIndex fid' (hcover fid' hfid f hf _ hl)
        (fun hF => hF hfid)
      exact ⟨fid₁, f₁, l₁, trivial, h₁⟩
    · refine ⟨fid', f, l, trivial, ?_, hl⟩
      rw [Backend.lookup_deleteIndex, if_neg heq]
      exact hf
  · exact fun id hid => Backend.fresh_of_deleteIndex hid

/-- **Every step of the command keeps its invariant, the footers and every blob that is listed**,
where the packs of the index files are in the list. -/
theorem Inv.step {phase phase' : RebuildPhase} (h : phase.Inv env b) (hb : b.Footed env plain)
    (hcov : phase.Covered b) (hstep : Step env b phase b' phase') :
    phase'.Inv env b' ∧ b'.Footed env plain ∧ Backend.Keeps Set.univ b b' := by
  cases hstep with
  | listPacks hpacks =>
    exact ⟨fun p hp => Option.isSome_iff_exists.mp ((hpacks p).mp hp), hb, .refl⟩
  | listIndices hold =>
    refine ⟨⟨h, fun _ _ hr => (by cases hr), fun fid hfid hfresh => ?_, ?_⟩, hb, .refl⟩
    · have hsome := (hold fid).mp hfid
      rw [hfresh.2.1] at hsome
      cases hsome
    · exact fun fid _ f hf e he => Or.inl (hcov fid f hf e he)
  | @read p todo old results =>
    obtain ⟨htodo, hresults, hold, hcover⟩ := h
    obtain ⟨data, hdata⟩ := htodo p List.mem_cons_self
    refine ⟨⟨fun q hq => htodo q (List.mem_cons_of_mem _ hq), fun q r hr => ?_, hold, ?_⟩, hb, .refl⟩
    · rcases List.mem_append.mp hr with hmem | hnew
      · exact hresults q r hmem
      · cases List.mem_singleton.mp hnew
        exact ⟨data, hdata, by rw [hdata]; rfl⟩
    · intro fid hfid f hf e he
      rcases hcover fid hfid f hf e he with hmem | ⟨r, hr⟩
      · rcases List.mem_cons.mp hmem with heq | hmem
        · exact Or.inr ⟨_, List.mem_append_right _ (List.mem_singleton.mpr (Prod.ext heq rfl))⟩
        · exact Or.inl hmem
      · exact Or.inr ⟨r, List.mem_append_left _ hr⟩
  | interrupt => exact ⟨trivial, hb, .refl⟩
  | populate => exact ⟨h.populate hb, hb, .refl⟩
  | @persist mi ix todo old fid hfresh =>
    obtain ⟨htodo, hold, hcover⟩ := h
    have hext : Extends b (b.saveIndex fid ix.toFile) := extends_saveIndex hfresh
    have hstale : Stale (b.saveIndex fid ix.toFile) old :=
      fun fid' hfid' => hext.stale fid' (hold fid' hfid')
    refine ⟨⟨fun ix' hix' e he => hext.listed (htodo ix' (List.mem_cons_of_mem _ hix') e he),
      hstale, hext.covers hold hcover fun e he => ?_⟩,
      hb.saveIndex (htodo ix List.mem_cons_self), Backend.keeps_saveIndex hfresh⟩
    rcases he with ⟨ix', hix', l, hl⟩ | hindexed
    · rcases List.mem_cons.mp hix' with rfl | hmem
      · have hnew : fid ∉ old := fun hmem => hold fid hmem hfresh
        exact Or.inr (Pipe.indexed_saveIndex hnew (e.1, l) hl)
      · exact Or.inl ⟨ix', hmem, l, hl⟩
    · exact Or.inr (hext.indexed hindexed)
  | @persistFail _ mi ix todo old fid hfail =>
    rcases hfail with rfl | ⟨hfresh, rfl⟩
    · exact ⟨trivial, hb, .refl⟩
    · exact ⟨trivial, hb.saveIndex (h.1 ix List.mem_cons_self), Backend.keeps_saveIndex hfresh⟩
  | @startDeleting mi old =>
    obtain ⟨-, hold, hcover⟩ := h
    have hsub : ∀ fid ∈ old.filter (fun id => id ∉ mi.ids), fid ∈ old :=
      fun fid hfid => (List.mem_filter.mp hfid).1
    have hcover' : Covers b old fun e => b.Indexed { fid | fid ∉ old } e.1 := by
      intro fid hfid f hf e he
      rcases hcover fid hfid f hf e he with ⟨ix, hix, _⟩ | hindexed
      · cases hix
      · exact hindexed
    exact ⟨⟨fun fid hfid => hold fid (hsub fid hfid), covers_subset hcover' hsub⟩, hb, .refl⟩
  | @delete fid old hfid =>
    obtain ⟨hold, hcover⟩ := h
    have hkeep := keeps_deleteIndex hfid hcover
    have hsub : ∀ fid' ∈ old.erase fid, fid' ∈ old := fun fid' h => List.mem_of_mem_erase h
    refine ⟨⟨fun fid' hfid' hfresh => hold fid' (hsub fid' hfid') (hkeep.fresh fid' hfresh),
      fun fid' hfid' f hf e he => ?_⟩, footed_deleteIndex hb, hkeep⟩
    rw [Backend.deleteIndex, Table.lookup_erase_eq_ite] at hf
    split at hf
    · cases hf
    · obtain ⟨fid₁, f₁, l₁, hF, h₁⟩ := Backend.indexed_deleteIndex fid
        (hcover fid' (hsub fid' hfid') f hf e he) (fun hF => hF hfid)
      exact ⟨fid₁, f₁, l₁, fun hmem => hF (hsub fid₁ hmem), h₁⟩
  | @deleteFail fid old hfid =>
    have hsub : ∀ fid' ∈ old.erase fid, fid' ∈ old := fun fid' h => List.mem_of_mem_erase h
    exact ⟨⟨fun fid' hfid' => h.1 fid' (hsub fid' hfid'), covers_subset h.2 hsub⟩, hb, .refl⟩
  | done => exact ⟨trivial, hb, .refl⟩

theorem Step.snapshots_eq {phase phase' : RebuildPhase} (h : Step env b phase b' phase') :
    b'.snapshots = b.snapshots := by
  cases h with
  | persistFail hfail =>
    rcases hfail with rfl | ⟨_, rfl⟩ <;> rfl
  | _ => rfl

end Inv

end RebuildPhase

/-! ## Beside backups -/

/-- The clients that make backups, and the command. -/
structure RebuildSystem (ι ρ : Type) (n : ι → Nat) where
  backups : SnapshotSystem ι ρ n
  rebuild : RebuildPhase

/-- Who takes a step. -/
inductive RebuildEvent (ι ρ : Type) where
  | backup (i : ι) (e : ClientEvent ρ)
  | rebuild

/-- The calls of a step pass the plaintexts of their IDs. -/
def RebuildEvent.Honest {ι ρ : Type} (env : Env) (plain : ID → Bytes) : RebuildEvent ι ρ → Prop
  | .backup _ e => e.Honest env plain
  | .rebuild => True

/-- What the client has registered is listed in footers. -/
def Client.Footed {ρ : Type} {n : Nat} (env : Env) (b : Backend) : Client ρ n → Prop
  | .running _ _ _ p => p.Footed env b
  | _ => True

section Client

variable {ρ : Type} {n : Nat} {env : Env} {codec : TreeCodec} {plain : ID → Bytes} {b b' : Backend}
  {c c' : Client ρ n} {e : ClientEvent ρ}

theorem Client.Footed.keeps {F : Set ID} (h : c.Footed env b) (hb : Backend.Keeps F b b') :
    c.Footed env b' := by
  cases c with
  | running parent phase a p => exact Pipe.Footed.keeps h hb
  | _ => trivial

theorem Client.Footed.step [DecidableEq ρ] (h : c.Footed env b) (hinv : c.Inv env codec plain b)
    (hsmall : c.Small) (hb : b.Footed env plain) (hstep : Client.Step env codec b c e b' c') :
    c'.Footed env b' ∧ b'.Footed env plain := by
  cases hstep with
  | resolve parent hparent => exact ⟨trivial, hb⟩
  | reload num root counts =>
    refine ⟨Pipe.Footed.init fun e he => ?_, hb⟩
    obtain ⟨fid, f, hf, hmem⟩ := Backend.mem_entries_reload.mp he
    exact hb.entries fid f hf e hmem
  | archive harch =>
    rcases harch.pipe with rfl | ⟨e, rfl, hcall⟩
    · exact ⟨h, hb⟩
    · exact Pipe.Footed.step h hinv.1.sound hsmall hb (.call hcall)
  | saver hsaver => exact Pipe.Footed.step h hinv.1.sound hsmall hb (.saver hsaver)
  | worker hworker => exact Pipe.Footed.step h hinv.1.sound hsmall hb (.worker hworker)
  | flush hflush => exact Pipe.Footed.step h hinv.1.sound hsmall hb (.flush hflush)
  | save sid =>
    exact ⟨Pipe.Footed.keeps h (F := Set.univ) Backend.keeps_saveSnapshot, hb.packs, hb.entries⟩
  | _ => exact ⟨h, hb⟩

/-- A client only adds files. -/
theorem Client.Inv.extends [DecidableEq ρ] (h : c.Inv env codec plain b)
    (hstep : Client.Step env codec b c e b' c') : RebuildPhase.Extends b b' := by
  rcases h.writes hstep with hw | ⟨sid, t, -, rfl⟩
  · cases hw with
    | none => exact ⟨fun _ _ hp => hp, fun _ _ => rfl, fun _ hf => hf⟩
    | @pack id data hfresh =>
      have hkeep : Backend.Keeps Set.univ b (b.savePack id data) := Backend.keeps_savePack data
        hfresh
      exact ⟨hkeep.packs, fun _ _ => rfl, fun fid hstale hf => hstale (hkeep.fresh fid hf)⟩
    | index hfresh _ => exact RebuildPhase.extends_saveIndex hfresh
  · exact ⟨fun _ _ hp => hp, fun _ _ => rfl, fun _ hf => hf⟩

end Client

namespace RebuildSystem

variable {ι ρ : Type} {n : ι → Nat} {env : Env} {codec : TreeCodec} {plain : ID → Bytes}

/-- The files that all of them work on. -/
abbrev backend (s : RebuildSystem ι ρ n) : Backend := s.backups.backend

/-- A step of a client or of the command. -/
inductive Step [DecidableEq ι] [DecidableEq ρ] (env : Env) (codec : TreeCodec) :
    RebuildSystem ι ρ n → RebuildEvent ι ρ → RebuildSystem ι ρ n → Prop where
  | backup {s : RebuildSystem ι ρ n} {i : ι} {e : ClientEvent ρ} {t : SnapshotSystem ι ρ n} :
      SnapshotSystem.Step env codec s.backups (i, e) t → Step env codec s (.backup i e) ⟨t, s.rebuild⟩
  | rebuild {s : RebuildSystem ι ρ n} {b' : Backend} {phase : RebuildPhase} :
      RebuildPhase.Step env s.backend s.rebuild b' phase →
      Step env codec s .rebuild ⟨⟨b', s.backups.clients⟩, phase⟩

/-- The condition on a step: no pack reaches 4 GiB, and when the command lists the index files,
every pack that they refer to is in its list. -/
def Covered (s : RebuildSystem ι ρ n) : RebuildEvent ι ρ → Prop
  | .backup i _ => (s.backups.clients i).Small
  | .rebuild => s.rebuild.Covered s.backend

/-- The invariant of the clients and the command. -/
structure Inv (env : Env) (codec : TreeCodec) (plain : ID → Bytes) (s : RebuildSystem ι ρ n) :
    Prop where
  backups : s.backups.Inv env codec plain
  files : s.backend.Footed env plain
  clients : ∀ i, (s.backups.clients i).Footed env s.backend
  rebuild : s.rebuild.Inv env s.backend

variable [DecidableEq ι] [DecidableEq ρ]

theorem Inv.step {s s' : RebuildSystem ι ρ n} {l : RebuildEvent ι ρ} (hl : l.Honest env plain)
    (h : s.Inv env codec plain) (hstep : Guarded (Step env codec) Covered s l s') :
    s'.Inv env codec plain := by
  obtain ⟨hstep, hcov⟩ := hstep
  cases hstep with
  | @backup i e t hbackup =>
    have hnext := h.backups.step (l := (i, e)) hl hbackup
    cases hbackup with
    | @client _ _ b' c' hclient =>
      have hi := h.backups.clients i
      have hfoot := (h.clients i).step hi hcov h.files hclient
      have hext := hi.extends hclient
      have hkeep : Backend.Keeps Set.univ s.backend b' :=
        ⟨hext.packs, fun _ hid => hext.indexed hid, fun id hf => by
          by_contra hstale
          exact hext.stale id hstale hf⟩
      refine ⟨hnext, hfoot.2, fun j => ?_, h.rebuild.extends hext⟩
      by_cases heq : j = i
      · subst heq
        simp only [Function.update_self]
        exact hfoot.1
      · simp only [Function.update_of_ne heq]
        exact (h.clients j).keeps hkeep
  | rebuild hrebuild =>
    obtain ⟨hphase, hfiles, hkeep⟩ := h.rebuild.step h.files hcov hrebuild
    refine ⟨⟨fun fid f _ hf e he => ⟨trivial, hfiles.consistent fid f hf e he⟩, ?_,
      fun i => (h.backups.clients i).keeps hkeep⟩, hfiles, fun i => (h.clients i).keeps hkeep,
        hphase⟩
    intro sid snap hsnap id hid
    rw [hrebuild.snapshots_eq] at hsnap
    exact hkeep.indexed id (h.backups.snapshots sid snap hsnap id hid)

/-- **Every snapshot stays complete beside rebuild-index when the packs of the index files are
listed.** The run starts in a repository whose footers list the entries of the index files, with
complete snapshots. In every run of the command and of any number of backups in which, at the time
the command lists the index files, every pack that they refer to is in its list of packs, and in
which no pack reaches 4 GiB, every blob of every snapshot is in an index file at all times. -/
theorem rebuild_keeps_snapshots {s₀ s : RebuildSystem ι ρ n} {ls : List (RebuildEvent ι ρ)}
    (hfiles : s₀.backend.Footed env plain)
    (hcomplete : s₀.backend.SnapshotsComplete env codec plain)
    (hclients : ∀ i, s₀.backups.clients i = .resolving) (hrebuild : s₀.rebuild = .starting)
    (hls : ∀ l ∈ ls, l.Honest env plain) (hrun : Run (Guarded (Step env codec) Covered) s₀ ls s) :
    s.backend.SnapshotsComplete env codec plain := by
  have hinit : s₀.Inv env codec plain := by
    refine ⟨⟨fun fid f _ hf e he => ⟨trivial, hfiles.consistent fid f hf e he⟩, ?_, fun i => ?_⟩,
      hfiles, fun i => ?_, ?_⟩
    · intro sid snap hsnap id hid
      obtain ⟨fid, f, l, hf, hl, -⟩ := hcomplete sid snap hsnap id hid
      exact ⟨fid, f, l, trivial, hf, hl⟩
    · rw [hclients i]
      trivial
    · rw [hclients i]
      trivial
    · rw [hrebuild]
      trivial
  have hinv : s.Inv env codec plain :=
    hrun.invariant_of_labels (Q := fun l => l.Honest env plain)
      (fun _ _ _ hl h hstep => h.step hl hstep) hls hinit
  exact fun sid snap hsnap id hid =>
    hinv.backups.available (hinv.backups.snapshots sid snap hsnap id hid)

end RebuildSystem

/-! ## Concrete runs -/

section Sample

open RebuildSystem

/-- **A backup between the two listings loses its index.** The command has listed the packs of an
empty repository when a client makes a backup. The command then lists the index file of the backup,
finds no pack to read and deletes the file: all have finished, and the root tree of the snapshot is
in no index file. -/
theorem rebuild_deletes_index_of_backup : ∃ ls, ∃ s : RebuildSystem Unit Unit (fun _ => 1),
    Run (RebuildSystem.Step sampleEnv sampleCodec) ⟨solo emptyBackend .resolving, .starting⟩ ls s ∧
    (∀ l ∈ ls, l.Honest sampleEnv emptyTreePlain) ∧ s.rebuild = .finished ∧
    s.backend.snapshots.lookup 50 = some ⟨123⟩ ∧ ¬ s.backend.Indexed Set.univ 123 := by
  obtain ⟨ls, b, c, f, hrun, hhonest, hsnap, hindex⟩ := exists_run_emptyTree
  have hlift : Run (RebuildSystem.Step sampleEnv sampleCodec)
      ⟨solo emptyBackend .resolving, .listed []⟩ (ls.map fun l => .backup l.1 l.2)
      ⟨solo b c, .listed []⟩ :=
    hrun.map (fun s => (⟨s, .listed []⟩ : RebuildSystem Unit Unit fun _ => 1))
      (fun l : Unit × ClientEvent Unit => RebuildEvent.backup l.1 l.2)
      fun _ _ _ hstep => RebuildSystem.Step.backup hstep
  have h₀ : Run (RebuildSystem.Step sampleEnv sampleCodec)
      ⟨solo emptyBackend .resolving, .starting⟩ [.rebuild] ⟨solo emptyBackend .resolving,
        .listed []⟩ :=
    Run.nil.snoc (.rebuild (.listPacks fun p => by simp [solo, emptyBackend]))
  have hold : ∀ fid, fid ∈ [(9 : ID)] ↔ (b.index.lookup fid).isSome = true := by
    intro fid
    rw [hindex, Table.lookup_insert_eq_ite, List.mem_singleton]
    split <;> simp_all
  have h₁ := (h₀.trans hlift).snoc (.rebuild (.listIndices hold))
  have h₂ := h₁.snoc (.rebuild .populate)
  have h₃ := h₂.snoc (.rebuild .startDeleting)
  have h₄ := h₃.snoc (.rebuild (.delete (show (9 : ID) ∈ _ from List.mem_singleton_self 9)))
  have h₅ := h₄.snoc (.rebuild .done)
  refine ⟨_, _, h₅, ?_, rfl, hsnap, ?_⟩
  · intro l hl
    cases l with
    | rebuild => trivial
    | backup i e =>
      simp only [List.mem_append, List.mem_singleton, List.mem_map, reduceCtorEq, or_false, false_or,
        RebuildEvent.backup.injEq] at hl
      obtain ⟨l', hl', -, rfl⟩ := hl
      exact hhonest l' hl'
  · rintro ⟨fid, f', l, -, hf, -⟩
    rw [Backend.deleteIndex, Table.lookup_erase_eq_ite] at hf
    split at hf
    · cases hf
    · rename_i hne
      have hf' : b.index.lookup fid = some f' := hf
      rw [hindex, Table.lookup_insert_eq_ite, if_neg hne] at hf'
      cases hf'

/-- A run goes on with a step of the command. -/
theorem rebuild_snoc {s₀ s : RebuildSystem Unit Unit (fun _ => 1)} {ls : List (RebuildEvent Unit Unit)}
    {b' : Backend} {phase : RebuildPhase}
    (h : Run (Guarded (RebuildSystem.Step sampleEnv sampleCodec) Covered) s₀ ls s)
    (hstep : RebuildPhase.Step sampleEnv s.backend s.rebuild b' phase)
    (hcov : s.rebuild.Covered s.backend) :
    Run (Guarded (RebuildSystem.Step sampleEnv sampleCodec) Covered) s₀ (ls ++ [.rebuild])
      ⟨⟨b', s.backups.clients⟩, phase⟩ :=
  h.snoc ⟨.rebuild hstep, hcov⟩

/-- A backup beside the command. The command lists the pack and the index file of the backup before
the backup writes its snapshot, and it replaces the index file by another one: both have finished, and
the snapshot is complete. -/
theorem sample_rebuild_keeps_snapshot : ∃ s : RebuildSystem Unit Unit (fun _ => 1),
    s.rebuild = .finished ∧ s.backend.snapshots.lookup 50 = some ⟨123⟩ ∧
    s.backend.index.lookup 9 = none ∧
    s.backend.SnapshotsComplete sampleEnv sampleCodec emptyTreePlain := by
  obtain ⟨ls, b, c, c', f, data, hrun, hsmall, hfresh, hhonest, hindex, hentries, hpacks, hparse,
    hsave⟩ :=
    exists_small_run_emptyTree
  have h₀ : Run (Guarded (RebuildSystem.Step sampleEnv sampleCodec) Covered)
      ⟨solo emptyBackend .resolving, .starting⟩ (ls.map fun l => .backup l.1 l.2)
      ⟨solo b c, .starting⟩ :=
    hrun.map (fun s => (⟨s, .starting⟩ : RebuildSystem Unit Unit fun _ => 1))
      (fun l : Unit × ClientEvent Unit => RebuildEvent.backup l.1 l.2)
      fun _ _ _ hstep => ⟨RebuildSystem.Step.backup hstep.1, hstep.2⟩
  have hlisted : ∀ p, p ∈ [(1 : ID)] ↔ (b.packs.lookup p).isSome = true := by
    intro p
    rw [hpacks, Table.lookup_insert_eq_ite, List.mem_singleton]
    split <;> simp_all
  have hold : ∀ fid, fid ∈ [(9 : ID)] ↔ (b.index.lookup fid).isSome = true := by
    intro fid
    rw [hindex, Table.lookup_insert_eq_ite, List.mem_singleton]
    split <;> simp_all
  have h₁ := rebuild_snoc h₀ (.listPacks hlisted) trivial
  have h₂ := rebuild_snoc h₁ (.listIndices hold) (by
    intro fid f' hf e he
    obtain ⟨rfl, rfl⟩ : fid = 9 ∧ f' = f := by
      have hf' : b.index.lookup fid = some f' := hf
      rw [hindex, Table.lookup_insert_eq_ite] at hf'
      split at hf'
      · exact ⟨‹_›, (Option.some.inj hf').symm⟩
      · cases hf'
    rw [hentries, List.mem_singleton] at he
    subst he
    exact List.mem_singleton_self _)
  -- the backup writes its snapshot
  have h₃ : Run (Guarded (RebuildSystem.Step sampleEnv sampleCodec) Covered)
      ⟨solo emptyBackend .resolving, .starting⟩ _
      ⟨solo (b.saveSnapshot 50 ⟨123⟩) c', .reading [1] [9] []⟩ :=
    h₂.snoc ⟨.backup (solo_step hsave), hsmall⟩
  have h₄ := rebuild_snoc h₃ .read trivial
  have hread : ((b.saveSnapshot 50 ⟨123⟩).packs.lookup 1).bind (Packer.parsePackFooter headerStorage) =
      some [⟨123, .tree, 0, 13, 12⟩] := by
    rw [Backend.saveSnapshot, hpacks, AList.lookup_insert, Option.bind_some, hparse]
  rw [List.nil_append] at h₄
  have h₅ := rebuild_snoc h₄ .populate trivial
  dsimp only [solo, sampleEnv] at h₅
  rw [hread] at h₅
  have h₆ := rebuild_snoc h₅ (.persist 10 hfresh) trivial
  have h₇ := rebuild_snoc h₆ .startDeleting trivial
  have h₈ := rebuild_snoc h₇ (.delete (show (9 : ID) ∈ _ from List.mem_singleton_self 9)) trivial
  have h₉ := rebuild_snoc h₈ .done trivial
  have hfiles : emptyBackend.Footed sampleEnv emptyTreePlain :=
    ⟨fun _ _ hp => (by cases hp), fun _ _ hf => (by cases hf)⟩
  refine ⟨_, rfl, AList.lookup_insert _, ?_, rebuild_keeps_snapshots hfiles
    (fun _ _ hsnap => (by cases hsnap)) (fun _ => rfl) rfl (fun l hl => ?_) h₉⟩
  · exact AList.lookup_erase _ _
  · cases l with
    | rebuild => trivial
    | backup i e =>
      simp only [List.mem_append, List.mem_singleton, List.mem_map, reduceCtorEq, or_false,
        RebuildEvent.backup.injEq] at hl
      rcases hl with ⟨l', hl', -, rfl⟩ | ⟨-, rfl⟩
      · exact hhonest l' hl'
      · trivial

end Sample

end Mapache
