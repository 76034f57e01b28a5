import Mapache.Repository.PackSaverSound

/-!
# What the footers of the packs list

A pack can be read without an index, through its footer. `Backend.Footed` says that every pack has a
footer that describes it and that the footers list every entry of the index files; a rebuilt index
then has the entries of the old one. The pack pipeline keeps this (`Footed.step`), as long as the
packs it uploads stay below 4 GiB: the length of a footer is written in 32 bits.
-/

set_option autoImplicit false

namespace Mapache

open Lib

/-- The footer of the pack of an entry lists the entry. -/
def Backend.Listed (env : Env) (b : Backend) (e : ID × BlobLocator) : Prop :=
  ∃ data ds, b.packs.lookup e.2.packId = some data ∧
    Packer.parsePackFooter env.storage data = some ds ∧ MasterIndex.descriptorOf e ∈ ds

/-- The footer of the pack can be read, and what it lists lies in the pack. -/
def Described (env : Env) (plain : ID → Bytes) (data : Bytes) : Prop :=
  ∃ ds, Packer.parsePackFooter env.storage data = some ds ∧
    ∀ d ∈ ds, d.blobType ≠ .padding ∧ DescribesSlice env.storage plain data d

/-- Every pack is described by its footer, and the footers list the entries of the index files. -/
structure Backend.Footed (env : Env) (plain : ID → Bytes) (b : Backend) : Prop where
  packs : ∀ p data, b.packs.lookup p = some data → Described env plain data
  entries : ∀ fid f, b.index.lookup fid = some f → ∀ e ∈ f.entries, b.Listed env e

/-- What a worker has in hand is listed in footers. -/
def WorkerPhase.Footed (env : Env) (b : Backend) : WorkerPhase → Prop
  | .registering pack =>
    Packer.parsePackFooter env.storage pack.data = some (withoutPadding pack.descriptors)
  | .persisting ix => ∀ e ∈ ix.iterIds, b.Listed env e
  | _ => True

/-- What a flush still writes is listed in footers. -/
def FlushPhase.Footed (env : Env) (b : Backend) : FlushPhase → Prop
  | .persisting todo | .marking _ _ todo => ∀ ix ∈ todo, ∀ e ∈ ix.iterIds, b.Listed env e
  | _ => True

section

variable {env : Env} {plain : ID → Bytes} {F : Set ID} {G : Set (ID × BlobLocator)} {b b' : Backend}

theorem Backend.Listed.keeps {e : ID × BlobLocator} (h : b.Listed env e)
    (hb : Backend.Keeps F b b') : b'.Listed env e := by
  obtain ⟨data, ds, hdata, hds, hmem⟩ := h
  exact ⟨data, ds, hb.packs _ data hdata, hds, hmem⟩

/-- An entry that a footer lists points to its blob. -/
theorem Backend.Footed.holds (h : b.Footed env plain) {e : ID × BlobLocator} (he : b.Listed env e) :
    b.Holds env plain e := by
  obtain ⟨data, ds, hdata, hds, hmem⟩ := he
  obtain ⟨ds', hds', hslices⟩ := h.packs _ data hdata
  rw [hds] at hds'
  cases hds'
  exact ⟨data, hdata, (hslices _ hmem).2⟩

/-- A repository whose footers list its index is consistent. -/
theorem Backend.Footed.consistent (h : b.Footed env plain) : b.Consistent env plain :=
  fun fid f hf e he => h.holds (h.entries fid f hf e he)

theorem WorkerPhase.Footed.keeps {p : WorkerPhase} (h : p.Footed env b)
    (hb : Backend.Keeps F b b') : p.Footed env b' := by
  cases p with
  | registering pack => exact h
  | persisting ix => exact fun e he => (h e he).keeps hb
  | _ => trivial

theorem FlushPhase.Footed.keeps {p : FlushPhase} (h : p.Footed env b)
    (hb : Backend.Keeps F b b') : p.Footed env b' := by
  cases p with
  | persisting todo => exact fun ix hix e he => (h ix hix e he).keeps hb
  | marking ix fid todo => exact fun ix hix e he => (h ix hix e he).keeps hb
  | _ => trivial

/-- A pack below 4 GiB is described by its footer. -/
theorem FinalizedPack.WF.described {pack : FinalizedPack} (h : pack.WF env.storage plain)
    (hsmall : pack.data.length < 2 ^ 32) : Described env plain pack.data := by
  refine ⟨_, h.footer hsmall, fun d hd => ?_⟩
  rw [withoutPadding, List.mem_filter, decide_eq_true_eq] at hd
  exact ⟨hd.2, h.slices d hd.1 hd.2⟩

theorem Backend.Footed.savePack {id : ID} {data : Bytes} (h : b.Footed env plain) (hfresh : b.Fresh id)
    (hdata : Described env plain data) : (b.savePack id data).Footed env plain := by
  have hkeep : Backend.Keeps Set.univ b (b.savePack id data) := Backend.keeps_savePack data hfresh
  refine ⟨fun p data' hp => ?_, fun fid f hf e he => (h.entries fid f hf e he).keeps hkeep⟩
  rw [Backend.savePack, Table.lookup_insert_eq_ite] at hp
  split at hp
  · cases hp
    exact hdata
  · exact h.packs p data' hp

theorem Backend.Footed.saveIndex {fid : ID} {ix : Index} (h : b.Footed env plain)
    (hix : ∀ e ∈ ix.iterIds, b.Listed env e) : (b.saveIndex fid ix.toFile).Footed env plain := by
  refine ⟨h.packs, fun fid' f hf e he => ?_⟩
  rw [Backend.saveIndex, Table.lookup_insert_eq_ite] at hf
  split at hf
  · cases hf
    exact hix e (Index.mem_entries_toFile.mp he)
  · exact h.entries fid' f hf e he

end

namespace Pipe

variable {κ : Type} {n : Nat}

/-- Every pack that is about to be uploaded is below 4 GiB. -/
def Small (s : Pipe κ n) : Prop :=
  ∀ w pack, s.workers w = .uploading pack → pack.data.length < 2 ^ 32

/-- Everything that the pipeline has registered is listed in footers. -/
structure Footed (env : Env) (b : Backend) (s : Pipe κ n) : Prop where
  entries : ∀ e ∈ s.index.entries, b.Listed env e
  workers : ∀ w, (s.workers w).Footed env b
  flush : s.flush.Footed env b

variable {env : Env} {plain : ID → Bytes} {F : Set ID}
  {G : Set (ID × BlobLocator)} {b b' : Backend} {s s' : Pipe κ n}

theorem Footed.keeps (h : s.Footed env b) (hb : Backend.Keeps F b b') : s.Footed env b' :=
  ⟨fun e he => (h.entries e he).keeps hb, fun w => (h.workers w).keeps hb, h.flush.keeps hb⟩

theorem Footed.init {index : MasterIndex} (h : ∀ e ∈ index.entries, b.Listed env e) :
    (init index : Pipe κ n).Footed env b :=
  ⟨h, fun _ => trivial, trivial⟩

/-- The entries of a registered pack are listed in its footer. -/
theorem Footed.register (h : s.Footed env b) {pack : FinalizedPack}
    (hfooter : Packer.parsePackFooter env.storage pack.data = some (withoutPadding pack.descriptors))
    (hdata : b.packs.lookup pack.id = some pack.data) (timedOut : Bool) :
    ∀ e ∈ (s.index.addPackLocked env.toIndexEnv pack.id pack.descriptors timedOut).1.entries,
      b.Listed env e := by
  rintro ⟨id, l⟩ he
  rcases MasterIndex.mem_entries_addPackLocked he with hold | ⟨d, hd, hne, rfl, rfl⟩
  · exact h.entries _ hold
  · refine ⟨pack.data, _, hdata, hfooter, ?_⟩
    rw [withoutPadding, List.mem_filter, decide_eq_true_eq]
    exact ⟨hd, hne⟩

theorem Footed.workerStep {l : PipeEvent κ} (h : s.Footed env b)
    (hs : s.Sound env plain G F b) (hsmall : s.Small) (hb : b.Footed env plain)
    (hstep : WorkerStep env b s l b' s') : s'.Footed env b' ∧ b'.Footed env plain := by
  have hmove : ∀ {w : Fin n} {p : WorkerPhase}, p.Footed env b →
      ∀ w', (Function.update s.workers w p w').Footed env b := fun hp => forall_update h.workers hp
  cases hstep with
  | @upload _ w pack hw hfresh =>
    have hp := hs.workers w
    rw [hw] at hp
    have h' := h.keeps (Backend.keeps_savePack (F := F) pack.data hfresh)
    exact ⟨{ h' with workers := forall_update h'.workers (hp.footer (hsmall w pack hw)) },
      hb.savePack hfresh (hp.described (hsmall w pack hw))⟩
  | @uploadFail _ _ w pack hw hfail =>
    have hp := hs.workers w
    rw [hw] at hp
    rcases hfail with rfl | ⟨hfresh, rfl⟩
    · exact ⟨{ h with workers := hmove trivial }, hb⟩
    · have h' := h.keeps (Backend.keeps_savePack (F := F) pack.data hfresh)
      exact ⟨{ h' with workers := forall_update h'.workers trivial },
        hb.savePack hfresh (hp.described (hsmall w pack hw))⟩
  | @register _ w pack timedOut hw =>
    have hp := hs.workers w
    rw [hw] at hp
    have hfooter := h.workers w
    rw [hw] at hfooter
    have hentries := h.register hfooter hp.2.2 timedOut
    refine ⟨⟨hentries, forall_update h.workers ?_, h.flush⟩, hb⟩
    split
    · trivial
    · rename_i ix hix
      intro e he
      exact hentries e (MasterIndex.mem_entries.mpr
        ⟨ix, (MasterIndex.mem_of_addPackLocked_snd hix).1, he⟩)
  | @persist _ w ix fid hw hfresh =>
    have hp := h.workers w
    rw [hw] at hp
    have h' := h.keeps (Backend.keeps_saveIndex (F := F) (f := ix.toFile) hfresh)
    exact ⟨{ h' with workers := forall_update h'.workers trivial }, hb.saveIndex hp⟩
  | @persistFail _ _ w ix fid hw hfail =>
    have hp := h.workers w
    rw [hw] at hp
    rcases hfail with rfl | ⟨hfresh, rfl⟩
    · exact ⟨{ h with workers := hmove trivial }, hb⟩
    · have h' := h.keeps (Backend.keeps_saveIndex (F := F) (f := ix.toFile) hfresh)
      exact ⟨{ h' with workers := forall_update h'.workers trivial }, hb.saveIndex hp⟩
  | @mark _ w ix fid hw =>
    refine ⟨{ h with entries := ?_, workers := hmove trivial }, hb⟩
    rw [MasterIndex.entries_setPersisted]
    exact h.entries
  | _ => exact ⟨{ h with workers := hmove trivial }, hb⟩

theorem Footed.flushStep {l : PipeEvent κ} (h : s.Footed env b) (hb : b.Footed env plain)
    (hstep : FlushStep b s l b' s') : s'.Footed env b' ∧ b'.Footed env plain := by
  cases hstep with
  | take hf => exact ⟨{ h with flush := trivial }, hb⟩
  | joinFail hf hs => exact ⟨{ h with flush := trivial }, hb⟩
  | joinOk hf hs =>
    refine ⟨{ h with entries := ?_, flush := ?_ }, hb⟩
    · rw [MasterIndex.entries_finalizeAll]
      exact h.entries
    · exact fun ix hix e he => h.entries e (MasterIndex.mem_entries_of_toPersist hix he)
  | @persist _ ix todo fid hf hfresh =>
    have hp := h.flush
    rw [hf] at hp
    have h' := h.keeps (Backend.keeps_saveIndex (F := Set.univ) (f := ix.toFile) hfresh)
    have hp' := h'.flush
    rw [hf] at hp'
    exact ⟨{ h' with flush := fun ix' hix' => hp' ix' (List.mem_cons_of_mem _ hix') },
      hb.saveIndex (hp ix List.mem_cons_self)⟩
  | @persistFail _ _ ix todo fid hf hfail =>
    have hp := h.flush
    rw [hf] at hp
    rcases hfail with rfl | ⟨hfresh, rfl⟩
    · exact ⟨{ h with flush := trivial }, hb⟩
    · have h' := h.keeps (Backend.keeps_saveIndex (F := Set.univ) (f := ix.toFile) hfresh)
      exact ⟨{ h' with flush := trivial }, hb.saveIndex (hp ix List.mem_cons_self)⟩
  | @mark _ ix todo fid hf =>
    have hp := h.flush
    rw [hf] at hp
    refine ⟨{ h with entries := ?_, flush := hp }, hb⟩
    rw [MasterIndex.entries_setPersisted]
    exact h.entries
  | done hf => exact ⟨{ h with flush := trivial }, hb⟩

/-- **Every step of a pipeline keeps the footers complete**, as long as no pack reaches 4 GiB. -/
theorem Footed.step [DecidableEq κ] {l : PipeEvent κ} (h : s.Footed env b)
    (hs : s.Sound env plain G F b) (hsmall : s.Small) (hb : b.Footed env plain)
    (hstep : Step env b s l b' s') : s'.Footed env b' ∧ b'.Footed env plain := by
  cases hstep with
  | call hcall => cases hcall <;> exact ⟨{ h with }, hb⟩
  | saver hsaver => cases hsaver <;> exact ⟨{ h with }, hb⟩
  | worker hworker => exact h.workerStep hs hsmall hb hworker
  | flush hflush => exact h.flushStep hb hflush

end Pipe

end Mapache
