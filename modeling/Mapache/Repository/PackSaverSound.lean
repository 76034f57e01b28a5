import Mapache.Repository.PackSaver

/-!
# What the pack pipeline carries is sound

`Pipe.Sound` collects what holds of the data in a pipeline at any time: the requests in the queue,
the packers on their way and the finalized packs decode to the plaintexts of their IDs, the entries
of the index in memory lie in packs that hold the blobs, and an index that is marked as persisted
has its blobs listed in a file.

Three parameters are fixed throughout: `plain`, the plaintext behind each ID, the set `G` of entries
that the index may have and the set `F` of index files that count. A file that is still to be
written has a fresh ID; fresh IDs belong to `F`, and entries in a pack with a fresh ID to `G`
(`admits`). Another client may change the backend at any time as long as it keeps what
`Backend.Keeps` says (`Sound.keeps`).
-/

set_option autoImplicit false

namespace Mapache

open Lib

/-- The call passes the plaintext of its ID, and no caller saves padding. -/
structure Blob.Honest (plain : ID → Bytes) (c : Blob) : Prop where
  data : c.data = plain c.id
  blobType : c.blobType ≠ .padding

/-- The blob that a caller has in hand. -/
def CallPhase.blob : CallPhase → Option Blob
  | .idle => none
  | .checking c | .lookup c | .cloning c | .sending c _ | .noting c | .notingIndex c | .inserting c
  | .returned c => some c

/-- Every call passes the plaintext of its ID. -/
def PipeEvent.Honest {κ : Type} (env : Env) (plain : ID → Bytes) : PipeEvent κ → Prop
  | .call _ t data saveId => (Blob.ofCall env t data saveId).Honest plain
  | _ => True

section Parts

variable (env : Env) (plain : ID → Bytes) (G : Set (ID × BlobLocator)) (F : Set ID)

/-- The request decodes to the plaintext of its ID. -/
structure Request.WF (r : Request) : Prop where
  blobType : r.blobType ≠ .padding
  ne_nil : r.data ≠ []
  decode : env.storage.decode r.data = some (plain r.id)

/-- A packer without blobs. -/
def Packer.Blank (p : Packer) : Prop := p.buffer = [] ∧ p.descriptors = []

/-- What a caller has in hand is honest and well encoded. -/
def CallPhase.WF (p : CallPhase) : Prop :=
  (∀ c, p.blob = some c → c.Honest plain) ∧
    ∀ c encoded, p = .sending c encoded → encoded ≠ [] ∧ env.storage.decode encoded = some c.data

/-- The entry is one of `G`, and its pack holds the blob. -/
def Good (b : Backend) (e : ID × BlobLocator) : Prop := e ∈ G ∧ b.Holds env plain e

/-- What a worker has in hand is well formed. A packer is only required to be so while no worker has
failed, since after that it is never finalized. -/
def WorkerPhase.WF (b : Backend) (firstErr : Bool) (index : MasterIndex) : WorkerPhase → Prop
  | .got p => firstErr = false → p.WF env.storage plain
  | .emptied p => p.Blank
  | .uploading pack => pack.WF env.storage plain
  | .registering pack => pack.WF env.storage plain ∧ (∀ e, e.2.packId = pack.id → e ∈ G) ∧
      b.packs.lookup pack.id = some pack.data
  | .persisting ix => index.Frozen ix ∧ ∀ e ∈ ix.iterIds, Good env plain G b e
  | .marking ix _ => index.Frozen ix ∧ ∀ e ∈ ix.iterIds, b.Indexed F e.1
  | .recycling p => p.Blank
  | .returning _ => firstErr = true
  | .waiting | .failing _ | .exited => True

/-- The indices that a flush still writes are frozen and sound. -/
def FlushPhase.WF (b : Backend) (index : MasterIndex) : FlushPhase → Prop
  | .persisting todo => ∀ ix ∈ todo, index.Frozen ix ∧ ∀ e ∈ ix.iterIds, Good env plain G b e
  | .marking ix _ todo => (index.Frozen ix ∧ ∀ e ∈ ix.iterIds, b.Indexed F e.1) ∧
      ∀ ix' ∈ todo, index.Frozen ix' ∧ ∀ e ∈ ix'.iterIds, Good env plain G b e
  | .idle | .joining | .finished _ => True

variable {env plain G F}

theorem Good.keeps {b b' : Backend} {e : ID × BlobLocator} (h : Good env plain G b e)
    (hk : Backend.Keeps F b b') : Good env plain G b' e :=
  ⟨h.1, h.2.keeps hk⟩

theorem Packer.Blank.new : Packer.new.Blank := ⟨rfl, rfl⟩

theorem Packer.Blank.wf {p : Packer} (h : p.Blank) : p.WF env.storage plain := by
  refine ⟨fun d hd => ?_, ?_⟩
  · rw [h.2] at hd
    cases hd
  · rw [h.1, h.2]
    rfl

/-- A packer whose buffer is empty has no descriptors, since an encoded blob is never empty. -/
theorem Packer.WF.blank {p : Packer} (h : p.WF env.storage plain) (hnil : p.buffer = []) :
    p.Blank := by
  refine ⟨hnil, List.eq_nil_iff_forall_not_mem.mpr ?_⟩
  intro d hd
  obtain ⟨_, enc, ⟨pre, post, heq, _, _⟩, hne, _⟩ := h.slices d hd
  rw [hnil] at heq
  simp only [List.nil_eq, List.append_eq_nil_iff] at heq
  exact hne heq.1.2

/-- What a worker has in hand stays well formed when others work on the index and the backend. -/
theorem WorkerPhase.WF.mono {b b' : Backend} {err err' : Bool} {index index' : MasterIndex}
    {p : WorkerPhase} (h : p.WF env plain G F b err index) (hb : Backend.Keeps F b b')
    (herr : err = true → err' = true) (hfrozen : ∀ ix, index.Frozen ix → index'.Frozen ix) :
    p.WF env plain G F b' err' index' := by
  have hfalse : err' = false → err = false := by
    intro h'
    cases err with
    | false => rfl
    | true => rw [herr rfl] at h'; cases h'
  cases p with
  | got p => exact fun h' => h (hfalse h')
  | emptied p => exact h
  | uploading pack => exact h
  | registering pack => exact ⟨h.1, h.2.1, hb.packs _ _ h.2.2⟩
  | persisting ix => exact ⟨hfrozen ix h.1, fun e he => (h.2 e he).keeps hb⟩
  | marking ix fid => exact ⟨hfrozen ix h.1, fun e he => hb.indexed _ (h.2 e he)⟩
  | recycling p => exact h
  | returning p => exact herr h
  | waiting | failing _ | exited => trivial

theorem FlushPhase.WF.mono {b b' : Backend} {index index' : MasterIndex} {p : FlushPhase}
    (h : p.WF env plain G F b index) (hb : Backend.Keeps F b b')
    (hfrozen : ∀ ix, index.Frozen ix → index'.Frozen ix) : p.WF env plain G F b' index' := by
  have htodo : ∀ todo : List Index,
      (∀ ix ∈ todo, index.Frozen ix ∧ ∀ e ∈ ix.iterIds, Good env plain G b e) →
      ∀ ix ∈ todo, index'.Frozen ix ∧ ∀ e ∈ ix.iterIds, Good env plain G b' e :=
    fun todo h ix hix => ⟨hfrozen ix (h ix hix).1, fun e he => ((h ix hix).2 e he).keeps hb⟩
  cases p with
  | persisting todo => exact htodo todo h
  | marking ix fid todo =>
    exact ⟨⟨hfrozen ix h.1.1, fun e he => hb.indexed _ (h.1.2 e he)⟩, htodo todo h.2⟩
  | idle | joining | finished _ => trivial

end Parts

namespace Pipe

variable {κ : Type} {n : Nat} {env : Env} {plain : ID → Bytes}
  {G : Set (ID × BlobLocator)} {F : Set ID}

/-- What holds of the data in a pipeline at any time. -/
structure Sound (env : Env) (plain : ID → Bytes) (G : Set (ID × BlobLocator)) (F : Set ID)
    (b : Backend) (s : Pipe κ n) : Prop where
  admits : ∀ id, b.Fresh id → (∀ e, e.2.packId = id → e ∈ G) ∧ id ∈ F
  index : s.index.WF
  entries : ∀ e ∈ s.index.entries, Good env plain G b e
  persisted : ∀ ix ∈ s.index.indices, ix.isPersisted = true → ∀ e ∈ ix.iterIds, b.Indexed F e.1
  callers : ∀ k, (s.callers k).WF env plain
  queue : ∀ r ∈ s.queue, r.WF env plain
  packers : s.firstErr = false → ∀ t, (s.packers t).WF env.storage plain
  hand : s.firstErr = false → ∀ p next, s.saver = .sending p next → p.WF env.storage plain
  full : s.firstErr = false → ∀ p ∈ s.full, p.WF env.storage plain
  pool : s.firstErr = false → ∀ p ∈ s.pool, p.Blank
  workers : ∀ w, (s.workers w).WF env plain G F b s.firstErr s.index
  flush : s.flush.WF env plain G F b s.index
  saved : ∀ c ∈ s.saved, c.Honest plain

/-- Another client's work on the backend keeps a pipeline sound. -/
theorem Sound.keeps {b b' : Backend} {s : Pipe κ n} (h : s.Sound env plain G F b)
    (hb : Backend.Keeps F b b') : s.Sound env plain G F b' :=
  { h with
    admits := fun id hid => h.admits id (hb.fresh id hid)
    entries := fun e he => (h.entries e he).keeps hb
    persisted := fun ix hix hp e he => hb.indexed _ (h.persisted ix hix hp e he)
    workers := fun w => (h.workers w).mono hb (fun h => h) fun _ h => h
    flush := h.flush.mono hb fun _ h => h }

/-- A property of all threads holds after one moved if it holds of its new phase. -/
theorem forall_update {α β : Type} [DecidableEq α] {P : β → Prop} {f : α → β} {a : α} {x : β}
    (hf : ∀ a, P (f a)) (hx : P x) : ∀ a', P (Function.update f a x a') :=
  (Function.forall_update_iff f fun _ y => P y).mpr ⟨hx, fun a' _ => hf a'⟩

theorem look_blob {mi : MasterIndex} {p : CallPhase} :
    (p.look env.toIndexEnv mi).blob = p.blob := by
  unfold CallPhase.look
  split <;> (try split) <;> rfl

theorem look_sending {mi : MasterIndex} {p : CallPhase} {c : Blob} {encoded : Bytes}
    (h : p.look env.toIndexEnv mi = .sending c encoded) : p = .sending c encoded := by
  unfold CallPhase.look at h
  split at h
  case h_5 => exact h
  all_goals split at h <;> cases h

/-- A caller encodes the plaintext of its ID, so what it sends decodes to it. -/
theorem Sound.callStep [DecidableEq κ] {b : Backend} {s s' : Pipe κ n} {l : PipeEvent κ}
    (h : s.Sound env plain G F b) (hl : l.Honest env plain) (hstep : CallStep env s l s') :
    s'.Sound env plain G F b := by
  have hidle : CallPhase.WF env plain .idle := ⟨fun _ hc => (by cases hc), fun _ _ he => (by cases he)⟩
  cases hstep with
  | call t data saveId hk =>
    refine { h with callers := forall_update h.callers ⟨?_, fun _ _ he => (by cases he)⟩ }
    intro c hc
    cases hc
    exact hl
  | @look k =>
    refine { h with callers := forall_update h.callers ⟨?_, ?_⟩ }
    · intro c hc
      rw [look_blob] at hc
      exact (h.callers k).1 c hc
    · intro c e he
      exact (h.callers k).2 c e (look_sending he)
  | reject hk hwhy => exact { h with callers := forall_update h.callers hidle }
  | @clone k c nonce encoded hk henc htx =>
    refine { h with callers := forall_update h.callers ⟨?_, ?_⟩ }
    · intro c' hc
      cases hc
      exact (h.callers k).1 c (by rw [hk]; rfl)
    · intro c' e he
      cases he
      exact ⟨SecureStorage.encode_ne_nil henc, SecureStorage.decode_encode henc⟩
  | @send k c encoded hk hopen =>
    have hwf := h.callers k
    rw [hk] at hwf
    obtain ⟨hne, hdec⟩ := hwf.2 c encoded rfl
    have hc := hwf.1 c rfl
    refine { h with callers := forall_update h.callers ⟨?_, ?_⟩, queue := ?_ }
    · intro c' hc'
      cases hc'
      exact hc
    · intro c' e he
      cases he
    · intro r hr
      rcases List.mem_append.mp hr with hold | hnew
      · exact h.queue r hold
      · rw [List.mem_singleton] at hnew
        subst hnew
        exact ⟨hc.blobType, hne, by rw [hdec, hc.data]⟩
  | sendFail hk hend => exact { h with callers := forall_update h.callers hidle }
  | @insert k c hk =>
    refine { h with
      index := ⟨h.index.1, h.index.2, h.index.3, h.index.4⟩
      callers := forall_update h.callers ⟨?_, fun _ _ he => (by cases he)⟩ }
    intro c' hc'
    cases hc'
    exact (h.callers k).1 c (by rw [hk]; rfl)
  | @ret k c hk =>
    refine { h with callers := forall_update h.callers hidle, saved := ?_ }
    intro c' hc'
    rcases List.mem_append.mp hc' with hold | hnew
    · exact h.saved c' hold
    · rw [List.mem_singleton.mp hnew]
      exact (h.callers k).1 c (by rw [hk]; rfl)

/-- The saver only moves blobs from one place to another. -/
theorem Sound.saverStep {b : Backend} {s s' : Pipe κ n} (h : s.Sound env plain G F b)
    (hstep : SaverStep env s s') : s'.Sound env plain G F b := by
  -- a dispatch ends in a phase that holds no packer
  have hnext : ∀ (next : SaverNext) (p : Packer) (next' : SaverNext),
      next.phase ≠ .sending p next' := by
    intro next p next'
    cases next <;> exact fun hp => by cases hp
  have hqueue : ∀ {r : Request} {q : List Request}, s.queue = r :: q → ∀ r' ∈ q, r'.WF env plain :=
    fun hq r' hr' => h.queue r' (by rw [hq]; exact List.mem_cons_of_mem _ hr')
  cases hstep with
  | start | startFail | close | disconnect | join =>
    exact { h with hand := fun _ p next hp => (by cases hp) }
  | skip hs hq hr => exact { h with queue := hqueue hq }
  | @add r q t p hs hq hr hadd =>
    have hwf := h.queue r (by rw [hq]; exact List.mem_cons_self)
    refine { h with queue := hqueue hq, packers := ?_, hand := ?_ }
    · intro herr
      exact forall_update (h.packers herr)
        ((h.packers herr t).addBlob hwf.blobType hwf.ne_nil hwf.decode hadd)
    · intro _ p' next hp
      dsimp only at hp
      split at hp <;> cases hp
  | addFail hs hq hr hadd =>
    exact { h with queue := hqueue hq, hand := fun _ p next hp => (by cases hp) }
  | dispatchEmpty hs hempty =>
    exact { h with hand := fun _ p next' hp => absurd hp (hnext _ p next') }
  | @take t next p ps hs hne hpool =>
    refine { h with packers := ?_, hand := ?_, pool := ?_ }
    · intro herr
      refine forall_update (h.packers herr) (h.pool herr p ?_).wf
      rw [hpool]
      exact List.mem_cons_self
    · intro herr p' next' hp
      cases hp
      exact h.packers herr t
    · intro herr p' hp'
      refine h.pool herr p' ?_
      rw [hpool]
      exact List.mem_cons_of_mem _ hp'
  | @send p next hs =>
    refine { h with full := ?_, hand := fun _ p next' hp => absurd hp (hnext _ p next') }
    intro herr p' hp'
    rcases List.mem_append.mp hp' with hold | hnew
    · exact h.full herr p' hold
    · rw [List.mem_singleton] at hnew
      subst hnew
      exact h.hand herr p' next hs

/-- The indices of a pipeline after a pack was registered: their entries are those there were and
those of the pack. -/
theorem Sound.entries_register {b : Backend} {s : Pipe κ n} (h : s.Sound env plain G F b)
    {pack : FinalizedPack} (hpack : pack.WF env.storage plain)
    (hG : ∀ e, e.2.packId = pack.id → e ∈ G) (hdata : b.packs.lookup pack.id = some pack.data)
    (timedOut : Bool) :
    ∀ e ∈ (s.index.addPackLocked env.toIndexEnv pack.id pack.descriptors timedOut).1.entries,
      Good env plain G b e := by
  rintro ⟨id, l⟩ he
  rcases MasterIndex.mem_entries_addPackLocked he with hold | ⟨d, hd, hne, rfl, rfl⟩
  · exact h.entries _ hold
  · exact ⟨hG _ rfl, pack.data, hdata, hpack.slices d hd hne⟩

/-- A persisted index is none that `add_pack` fills. -/
theorem Sound.persisted_register {b : Backend} {s : Pipe κ n} (h : s.Sound env plain G F b)
    (packId : ID) (ds : List PackedBlobDescriptor) (timedOut : Bool) :
    ∀ ix ∈ (s.index.addPackLocked env.toIndexEnv packId ds timedOut).1.indices,
      ix.isPersisted = true → ∀ e ∈ ix.iterIds, b.Indexed F e.1 := by
  intro ix hix hp e he
  rcases MasterIndex.mem_indices_addPackLocked hix with (hold | rfl) | ⟨ix₀, _, hpend, rfl⟩
  · exact h.persisted ix hold hp e he
  · cases he
  · rw [MasterIndex.fillPending_isPersisted hpend] at hp
    cases hp

/-- Recording a file as that of an index is sound when the file lists the index. -/
theorem Sound.persisted_mark {b : Backend} {s : Pipe κ n} (h : s.Sound env plain G F b) {ix : Index}
    {fid : ID} (hfrozen : s.index.Frozen ix) (hlisted : ∀ e ∈ ix.iterIds, b.Indexed F e.1) :
    ∀ ix' ∈ (s.index.setPersisted ix.instanceId fid).indices,
      ix'.isPersisted = true → ∀ e ∈ ix'.iterIds, b.Indexed F e.1 := by
  intro ix' hix' hp e he
  rcases MasterIndex.mem_indices_setPersisted hix' with hold | ⟨ix₀, hix₀, hinst, rfl⟩
  · exact h.persisted ix' hold hp e he
  · rw [Index.iterIds_setStatus, (hfrozen.2 ix₀ hix₀ hinst).2] at he
    exact hlisted e he

/-- An index file that was just written lists the entries of its index. -/
theorem indexed_saveIndex {b : Backend} {ix : Index} {fid : ID} (hF : fid ∈ F) :
    ∀ e ∈ ix.iterIds, (b.saveIndex fid ix.toFile).Indexed F e.1 := by
  rintro ⟨id, l⟩ he
  refine ⟨fid, ix.toFile, l, hF, ?_, Index.mem_entries_toFile.mpr he⟩
  rw [Backend.saveIndex, AList.lookup_insert]

/-- A failed write keeps what others rely on. -/
theorem FailedWrite.keeps {b b' written : Backend} {id : ID} (h : FailedWrite b id written b')
    (hw : b.Fresh id → Backend.Keeps F b written) : Backend.Keeps F b b' := by
  rcases h with rfl | ⟨hfresh, rfl⟩
  · exact .refl
  · exact hw hfresh

/-- A worker finalizes a packer, uploads it before it registers it, and records an index as
persisted only after its file is written. -/
theorem Sound.workerStep {b b' : Backend} {s s' : Pipe κ n} {l : PipeEvent κ}
    (h : s.Sound env plain G F b) (hstep : WorkerStep env b s l b' s') :
    s'.Sound env plain G F b' := by
  -- the other workers when nothing but one phase changes
  have hmove : ∀ {w : Fin n} {p : WorkerPhase}, p.WF env plain G F b s.firstErr s.index →
      ∀ w', (Function.update s.workers w p w').WF env plain G F b s.firstErr s.index :=
    fun hp => forall_update h.workers hp
  -- a packer that goes back to the pool
  have hpool : ∀ (ended : Bool) (p : Packer), (s.firstErr = false → p.Blank) →
      s.firstErr = false → ∀ p' ∈ (if ended then s.pool else s.pool ++ [p]), p'.Blank := by
    intro ended p hp herr p' hp'
    cases ended with
    | true => exact h.pool herr p' hp'
    | false =>
      rcases List.mem_append.mp hp' with hold | hnew
      · exact h.pool herr p' hold
      · rw [List.mem_singleton] at hnew
        subst hnew
        exact hp herr
  cases hstep with
  | @recv _ w p ps hw hfull =>
    have hmem : ∀ p' ∈ ps, p' ∈ s.full := fun p' hp' => by
      rw [hfull]
      exact List.mem_cons_of_mem _ hp'
    refine { h with full := fun herr p' hp' => h.full herr p' (hmem p' hp'), workers := ?_ }
    exact hmove fun herr => h.full herr p (by rw [hfull]; exact List.mem_cons_self)
  | closed | abandon | finalizeFail | recycleClosed => exact { h with workers := hmove trivial }
  | @finalize _ w p nonce rand pack hw herr hfin =>
    have hp := h.workers w
    rw [hw] at hp
    exact { h with workers := hmove ((hp herr).finalize hfin).1 }
  | @finalizeEmpty _ w p nonce rand hw herr hfin =>
    have hp := h.workers w
    rw [hw] at hp
    have hnil := Packer.finalizeAndExtract_none hfin
    exact { h with workers := hmove ((hp herr).blank hnil) }
  | @giveEmptied _ w p hw =>
    have hp := h.workers w
    rw [hw] at hp
    exact { h with pool := hpool _ p fun _ => hp, workers := hmove trivial }
  | @upload _ w pack hw hfresh =>
    have hp := h.workers w
    rw [hw] at hp
    have h' := h.keeps (Backend.keeps_savePack pack.data hfresh)
    refine { h' with workers := forall_update h'.workers ⟨hp, (h.admits _ hfresh).1, ?_⟩ }
    rw [Backend.savePack, AList.lookup_insert]
  | uploadFail hw hfail =>
    have h' := h.keeps (hfail.keeps (Backend.keeps_savePack _))
    exact { h' with workers := forall_update h'.workers trivial }
  | @register _ w pack timedOut hw =>
    obtain ⟨hpack, hG, hdata⟩ : pack.WF env.storage plain ∧ (∀ e, e.2.packId = pack.id → e ∈ G) ∧
        b.packs.lookup pack.id = some pack.data := by
      have hp := h.workers w
      rw [hw] at hp
      exact hp
    have hentries := h.entries_register hpack hG hdata timedOut
    refine { h with
      index := h.index.addPackLocked env.toIndexEnv pack.id pack.descriptors timedOut
      entries := hentries
      persisted := h.persisted_register pack.id pack.descriptors timedOut
      workers := forall_update
        (fun w' => (h.workers w').mono .refl (fun h => h) fun ix hix => hix.addPackLocked _ _ _ _) ?_
      flush := h.flush.mono .refl fun ix hix => hix.addPackLocked _ _ _ _ }
    split
    · exact .new
    · rename_i ix hix
      refine ⟨h.index.frozen_addPackLocked hix, ?_⟩
      intro e he
      exact hentries e (MasterIndex.mem_entries.mpr
        ⟨ix, (MasterIndex.mem_of_addPackLocked_snd hix).1, he⟩)
  | @persist _ w ix fid hw hfresh =>
    have hp := h.workers w
    rw [hw] at hp
    have h' := h.keeps (Backend.keeps_saveIndex (f := ix.toFile) hfresh)
    exact { h' with
      workers := forall_update h'.workers
        ⟨hp.1, indexed_saveIndex (h.admits _ hfresh).2⟩ }
  | persistFail hw hfail =>
    have h' := h.keeps (hfail.keeps Backend.keeps_saveIndex)
    exact { h' with workers := forall_update h'.workers trivial }
  | @mark _ w ix fid hw =>
    have hp := h.workers w
    rw [hw] at hp
    exact { h with
      index := h.index.setPersisted ix.instanceId fid
      entries := by
        rw [MasterIndex.entries_setPersisted]
        exact h.entries
      persisted := h.persisted_mark hp.1 hp.2
      workers := forall_update
        (fun w' => (h.workers w').mono .refl (fun h => h) fun ix hix => hix.setPersisted _ _) .new
      flush := h.flush.mono .refl fun ix hix => hix.setPersisted _ _ }
  | @recycle _ w p hw hopen =>
    have hp := h.workers w
    rw [hw] at hp
    have hblank := hpool false p fun _ => hp
    exact { h with pool := hblank, workers := hmove trivial }
  | fail hw =>
    exact { h with
      packers := fun herr => (by cases herr)
      hand := fun herr => (by cases herr)
      full := fun herr => (by cases herr)
      pool := fun herr => (by cases herr)
      workers := forall_update
        (fun w' => (h.workers w').mono .refl (fun _ => rfl) fun ix hix => hix) rfl }
  | @giveBack _ w p hw =>
    have hp : s.firstErr = true := by
      have hp := h.workers w
      rw [hw] at hp
      exact hp
    have hblank := hpool s.saver.ended p fun herr => by rw [hp] at herr; cases herr
    exact { h with pool := hblank, workers := hmove trivial }

/-- A flush writes what it collected and records it. -/
theorem Sound.flushStep {b b' : Backend} {s s' : Pipe κ n} {l : PipeEvent κ}
    (h : s.Sound env plain G F b) (hstep : FlushStep b s l b' s') : s'.Sound env plain G F b' := by
  cases hstep with
  | take hf => exact { h with flush := trivial }
  | joinFail hf hs => exact { h with flush := trivial }
  | joinOk hf hs =>
    exact { h with
      index := h.index.finalizeAll
      entries := by
        rw [MasterIndex.entries_finalizeAll]
        exact h.entries
      persisted := by
        intro ix hix hp e he
        obtain ⟨ix₀, hix₀, rfl⟩ := MasterIndex.mem_indices_finalizeAll hix
        split at hp
        · cases hp
        · rw [if_neg ‹_›] at he
          exact h.persisted ix₀ hix₀ hp e he
      workers := fun w => (h.workers w).mono .refl (fun h => h) fun ix hix => hix.finalizeAll
      flush := by
        intro ix hix
        exact ⟨h.index.frozen_finalizeAll hix,
          fun e he => h.entries e (MasterIndex.mem_entries_of_toPersist hix he)⟩ }
  | @persist _ ix todo fid hf hfresh =>
    have hp := h.flush
    rw [hf] at hp
    have h' := h.keeps (Backend.keeps_saveIndex (f := ix.toFile) hfresh)
    have hp' := h'.flush
    rw [hf] at hp'
    refine { h' with flush := ⟨⟨(hp ix List.mem_cons_self).1, ?_⟩, ?_⟩ }
    · exact indexed_saveIndex (h.admits _ hfresh).2
    · exact fun ix' hix' => hp' ix' (List.mem_cons_of_mem _ hix')
  | persistFail hf hfail =>
    have h' := h.keeps (hfail.keeps Backend.keeps_saveIndex)
    exact { h' with flush := trivial }
  | @mark _ ix todo fid hf =>
    have hp := h.flush
    rw [hf] at hp
    exact { h with
      index := h.index.setPersisted ix.instanceId fid
      entries := by
        rw [MasterIndex.entries_setPersisted]
        exact h.entries
      persisted := h.persisted_mark hp.1.1 hp.1.2
      workers := fun w => (h.workers w).mono .refl (fun h => h) fun ix hix => hix.setPersisted _ _
      flush := fun ix' hix' => ⟨(hp.2 ix' hix').1.setPersisted _ _, (hp.2 ix' hix').2⟩ }
  | done hf => exact { h with flush := trivial }

/-- **Every step of a pipeline keeps it sound.** -/
theorem Sound.step [DecidableEq κ] {b b' : Backend} {s s' : Pipe κ n} {l : PipeEvent κ}
    (h : s.Sound env plain G F b) (hl : l.Honest env plain) (hstep : Step env b s l b' s') :
    s'.Sound env plain G F b' := by
  cases hstep with
  | call hcall => exact h.callStep hl hcall
  | saver hsaver => exact h.saverStep hsaver
  | worker hworker => exact h.workerStep hworker
  | flush hflush => exact h.flushStep hflush

/-- A pipeline that starts on a sound index is sound. -/
theorem Sound.init {b : Backend} {index : MasterIndex} (hwf : index.WF)
    (hadmits : ∀ id, b.Fresh id → (∀ e, e.2.packId = id → e ∈ G) ∧ id ∈ F)
    (hentries : ∀ e ∈ index.entries, Good env plain G b e)
    (hpersisted : ∀ ix ∈ index.indices, ix.isPersisted = true → ∀ e ∈ ix.iterIds, b.Indexed F e.1) :
    (Pipe.init index : Pipe κ n).Sound env plain G F b where
  admits := hadmits
  index := hwf
  entries := hentries
  persisted := hpersisted
  callers := fun _ => ⟨fun _ hc => (by cases hc), fun _ _ he => (by cases he)⟩
  queue := fun _ hr => (by cases hr)
  packers := fun _ _ => Packer.WF.new
  hand := fun _ _ _ hp => (by cases hp)
  full := fun _ _ hp => (by cases hp)
  pool := by
    intro _ p hp
    rw [List.eq_of_mem_replicate hp]
    exact .new
  workers := fun _ => trivial
  flush := trivial
  saved := fun _ hc => (by cases hc)

/-! ## The backend -/

/-- The files that a step writes: a pack or the file of a sound index, under a fresh ID. -/
inductive Writes (env : Env) (plain : ID → Bytes) (G : Set (ID × BlobLocator)) (b : Backend) :
    Backend → Prop where
  | none : Writes env plain G b b
  | pack {id : ID} {data : Bytes} : b.Fresh id → Writes env plain G b (b.savePack id data)
  | index {fid : ID} {ix : Index} : b.Fresh fid → (∀ e ∈ ix.iterIds, Good env plain G b e) →
      Writes env plain G b (b.saveIndex fid ix.toFile)

/-- **A pipeline only adds files.** -/
theorem Sound.writes [DecidableEq κ] {b b' : Backend} {s s' : Pipe κ n} {l : PipeEvent κ}
    (h : s.Sound env plain G F b) (hstep : Step env b s l b' s') : Writes env plain G b b' := by
  cases hstep with
  | call hcall => exact .none
  | saver hsaver => exact .none
  | worker hworker =>
    cases hworker with
    | upload hw hfresh => exact .pack hfresh
    | uploadFail hw hfail =>
      rcases hfail with rfl | ⟨hfresh, rfl⟩
      · exact .none
      · exact .pack hfresh
    | @persist _ w ix fid hw hfresh =>
      have hp := h.workers w
      rw [hw] at hp
      exact .index hfresh hp.2
    | @persistFail _ _ w ix fid hw hfail =>
      have hp := h.workers w
      rw [hw] at hp
      rcases hfail with rfl | ⟨hfresh, rfl⟩
      · exact .none
      · exact .index hfresh hp.2
    | _ => exact .none
  | flush hflush =>
    cases hflush with
    | @persist _ ix todo fid hf hfresh =>
      have hp := h.flush
      rw [hf] at hp
      exact .index hfresh (hp ix List.mem_cons_self).2
    | @persistFail _ _ ix todo fid hf hfail =>
      have hp := h.flush
      rw [hf] at hp
      rcases hfail with rfl | ⟨hfresh, rfl⟩
      · exact .none
      · exact .index hfresh (hp ix List.mem_cons_self).2
    | _ => exact .none

theorem Writes.keeps {b b' : Backend} (h : Writes env plain G b b') : Backend.Keeps F b b' := by
  cases h with
  | none => exact .refl
  | pack hfresh => exact Backend.keeps_savePack _ hfresh
  | index hfresh _ => exact Backend.keeps_saveIndex hfresh

/-- The index files stay sound. -/
theorem Writes.indexSound {b b' : Backend} (h : Writes env plain G b b')
    (hs : b.IndexSound env plain G F) : b'.IndexSound env plain G F := by
  intro fid f hF hf e he
  have hkeep : Backend.Keeps F b b' := h.keeps
  cases h with
  | none => exact hs fid f hF hf e he
  | pack hfresh => exact Good.keeps (hs fid f hF hf e he) hkeep
  | @index fid' ix hfresh hgood =>
    rw [Backend.saveIndex, Table.lookup_insert_eq_ite] at hf
    split at hf
    · cases hf
      exact (hgood e (Index.mem_entries_toFile.mp he)).keeps hkeep
    · exact Good.keeps (hs fid f hF hf e he) hkeep

theorem Writes.snapshots {b b' : Backend} (h : Writes env plain G b b') :
    b'.snapshots = b.snapshots := by
  cases h <;> rfl

end Pipe

end Mapache
