import Mapache.Lib.Run
import Mapache.Repository.PackSaverFlush

/-!
# Saved blobs

What a client can rely on after `flush_and_finalize_pack_saver`. `Pipe.Known` adds to the invariants
of the pipeline that every blob a call was told about, because it is pending or because the call
returned `Ok`, is tracked; with it a run that ends in a successful flush has stored every saved blob
(`flush_stores_saved_blobs`).
-/

set_option autoImplicit false

namespace Mapache

open Lib

/-- The blob that a caller has sent or was told about. -/
def CallPhase.sent : CallPhase → Option Blob
  | .noting c | .notingIndex c | .inserting c | .returned c => some c
  | _ => none

/-- What a step of a call gives to its caller. -/
inductive CallOutcome where
  | running
  | ok (id : ID)
  | err

/-- The outcome of a step, from the phases of the caller before and after it. -/
def CallPhase.outcome : CallPhase → CallPhase → CallOutcome
  | .returned c, .idle => .ok c.id
  | .idle, _ => .running
  | _, .idle => .err
  | _, _ => .running

namespace Pipe

variable {κ : Type} {n : Nat} {env : Env} {plain : ID → Bytes}
  {G : Set (ID × BlobLocator)} {F : Set ID}

/-- The blob is tracked under some type. -/
def Knows (s : Pipe κ n) (id : ID) : Prop := ∃ t, t ≠ .padding ∧ s.Tracked id t

/-- Every blob that a call was told about is tracked. -/
structure Known (s : Pipe κ n) : Prop where
  pending : ∀ id ∈ s.index.pendingBlobs, s.Knows id
  callers : ∀ k c, (s.callers k).sent = some c → s.Knows c.id
  saved : ∀ c ∈ s.saved, s.Knows c.id

section Knowing

variable {b b' : Backend} {s s' : Pipe κ n}

theorem Knows.step [DecidableEq κ] {l : PipeEvent κ} {id : ID} (h : s.Knows id)
    (hs : s.Sound env plain G F b) (hstep : Step env b s l b' s') : s'.Knows id := by
  obtain ⟨t, ht, htr⟩ := h
  exact ⟨t, ht, htr.step hs ht hstep⟩

theorem knows_of_entry {id : ID} {l : BlobLocator} (h : (id, l) ∈ s.index.entries) : s.Knows id := by
  obtain ⟨ix, _, hmem⟩ := MasterIndex.mem_entries.mp h
  exact ⟨l.blobType, Index.blobType_ne_padding hmem, Or.inr (.entry h rfl)⟩

/-- A call goes on with a blob it has sent, or it was just told about it. -/
theorem Known.look (h : s.Known) {k : κ} {c : Blob}
    (hc : ((s.callers k).look env.toIndexEnv s.index).sent = some c) : s.Knows c.id := by
  cases hp : s.callers k with
  | checking c' =>
    simp only [hp, CallPhase.look] at hc
    split at hc
    · cases hc
      exact h.pending _ ‹_›
    · cases hc
  | lookup c' =>
    simp only [hp, CallPhase.look] at hc
    split at hc
    · cases hc
      obtain ⟨l, hl⟩ := MasterIndex.exists_mem_of_indexContains ‹_›
      exact knows_of_entry hl
    · cases hc
  | noting c' | notingIndex c' =>
    have hsent : c' = c := by
      simp only [hp, CallPhase.look] at hc
      split at hc <;> exact Option.some.inj hc
    exact h.callers k c (by rw [hp, ← hsent]; rfl)
  | inserting c' | returned c' =>
    simp only [hp, CallPhase.look] at hc
    exact h.callers k c (by rw [hp]; exact hc)
  | idle | cloning c' | sending c' e =>
    simp only [hp, CallPhase.look] at hc
    cases hc

/-- What was known and what a step of a caller adds to it is known in the state before the step, or
it was just sent. -/
theorem Known.callStep [DecidableEq κ] {l : PipeEvent κ} (h : s.Known) (hs : s.Sound env plain G F b)
    (hstep : CallStep env s l s') : s'.Known := by
  have hkeep : ∀ {id : ID}, s.Knows id → s'.Knows id := fun hk => hk.step hs (.call hstep)
  -- only the phase of caller `k` changes
  have hcallers : ∀ {k : κ} {p : CallPhase}, (∀ c, p.sent = some c → s'.Knows c.id) →
      ∀ k' c, (Function.update s.callers k p k').sent = some c → s'.Knows c.id := by
    intro k p hp k' c hc
    by_cases heq : k' = k
    · subst heq
      rw [Function.update_self] at hc
      exact hp c hc
    · rw [Function.update_of_ne heq] at hc
      exact hkeep (h.callers k' c hc)
  have hpending : ∀ id ∈ s.index.pendingBlobs, s'.Knows id := fun id hid => hkeep (h.pending id hid)
  have hsaved : ∀ c ∈ s.saved, s'.Knows c.id := fun c hc => hkeep (h.saved c hc)
  cases hstep with
  | call | reject | clone | sendFail => exact ⟨hpending, hcallers fun c hc => (by cases hc), hsaved⟩
  | look => exact ⟨hpending, hcallers fun c hc => hkeep (h.look hc), hsaved⟩
  | @send k c encoded hk hopen =>
    refine ⟨hpending, hcallers fun c' hc' => ?_, hsaved⟩
    cases hc'
    have hhonest := (hs.callers k).1 c (by rw [hk]; rfl)
    exact ⟨c.blobType, hhonest.blobType,
      Or.inr (.queue (List.mem_append_right _ (List.mem_singleton_self _)) rfl rfl)⟩
  | @insert k c hk =>
    have hknown : s.Knows c.id := h.callers k c (by rw [hk]; rfl)
    refine ⟨?_, hcallers fun c' hc' => ?_, hsaved⟩
    · intro id hid
      rcases Finset.mem_insert.mp hid with rfl | hold
      · exact hkeep hknown
      · exact hpending id hold
    · cases hc'
      exact hkeep hknown
  | @ret k c hk =>
    refine ⟨hpending, hcallers fun c hc => (by cases hc), ?_⟩
    intro c' hc'
    rcases List.mem_append.mp hc' with hold | hnew
    · exact hsaved c' hold
    · rw [List.mem_singleton.mp hnew]
      exact hkeep (h.callers k c (by rw [hk]; rfl))

/-- A step that tells no caller anything keeps what is known. -/
theorem Known.frame (h : s.Known) (hkeep : ∀ {id : ID}, s.Knows id → s'.Knows id)
    (hpending : s'.index.pendingBlobs ⊆ s.index.pendingBlobs) (hcallers : s'.callers = s.callers)
    (hsaved : s'.saved = s.saved) : s'.Known := by
  refine ⟨fun id hid => hkeep (h.pending id (hpending hid)), ?_, ?_⟩
  · rw [hcallers]
    exact fun k c hc => hkeep (h.callers k c hc)
  · rw [hsaved]
    exact fun c hc => hkeep (h.saved c hc)

/-- **Every step keeps what is known tracked.** -/
theorem Known.step [DecidableEq κ] {l : PipeEvent κ} (h : s.Known) (hs : s.Sound env plain G F b)
    (hstep : Step env b s l b' s') : s'.Known := by
  have hkeep : ∀ {id : ID}, s.Knows id → s'.Knows id := fun hk => hk.step hs hstep
  cases hstep with
  | call hcall => exact h.callStep hs hcall
  | saver hsaver => cases hsaver <;> exact h.frame hkeep subset_rfl rfl rfl
  | worker hworker =>
    cases hworker with
    | register timedOut hw => exact h.frame hkeep Finset.sdiff_subset rfl rfl
    | _ => exact h.frame hkeep subset_rfl rfl rfl
  | flush hflush => cases hflush <;> exact h.frame hkeep subset_rfl rfl rfl

end Knowing

/-! ## The invariant of a pipeline -/

/-- The invariant of a pipeline. -/
structure Inv (env : Env) (plain : ID → Bytes) (G : Set (ID × BlobLocator)) (F : Set ID)
    (b : Backend) (s : Pipe κ n) : Prop where
  sound : s.Sound env plain G F b
  settled : s.Settled
  known : s.Known

theorem Inv.step [DecidableEq κ] {b b' : Backend} {s s' : Pipe κ n} {l : PipeEvent κ}
    (h : s.Inv env plain G F b) (hl : l.Honest env plain) (hstep : Step env b s l b' s') :
    s'.Inv env plain G F b' :=
  ⟨h.sound.step hl hstep, h.settled.step h.sound hstep, h.known.step h.sound hstep⟩

theorem Inv.keeps {b b' : Backend} {s : Pipe κ n} (h : s.Inv env plain G F b)
    (hb : Backend.Keeps F b b') : s.Inv env plain G F b' :=
  ⟨h.sound.keeps hb, h.settled, h.known⟩

/-- A pipeline that starts on a sound index without pending blobs satisfies the invariant. -/
theorem Inv.init {b : Backend} {index : MasterIndex}
    (hs : (init index : Pipe κ n).Sound env plain G F b)
    (hpending : index.pendingBlobs = ∅) : (init index : Pipe κ n).Inv env plain G F b := by
  refine ⟨hs, .init index, ?_, ?_, ?_⟩
  · intro id hid
    have hmem : id ∈ index.pendingBlobs := hid
    rw [hpending] at hmem
    cases hmem
  · intro k c hc
    cases hc
  · intro c hc
    cases hc

/-- **After a successful flush every blob that a call was told about is in an index file.** -/
theorem Inv.indexed_of_flush {b : Backend} {s : Pipe κ n} (h : s.Inv env plain G F b)
    (hflush : s.flush = .finished true) {id : ID} (hk : s.Knows id) : b.Indexed F id := by
  obtain ⟨t, _, htr⟩ := hk
  have hfin := (h.settled.flush [] (by rw [hflush]; rfl)).1
  obtain ⟨l, hl, _⟩ := h.settled.entry hfin htr
  exact h.settled.indexed h.sound hflush hl

/-! ## The frame of a call -/

section Call

variable [DecidableEq κ] {s s' : Pipe κ n}

/-- A step of one caller leaves the others where they are. -/
theorem CallStep.callers_of_ne {l : PipeEvent κ} {k k' : κ} (h : CallStep env s l s')
    (hl : l = .caller k ∨ ∃ t data saveId, l = .call k t data saveId) (hne : k' ≠ k) :
    s'.callers k' = s.callers k' := by
  cases h <;> rcases hl with hl | ⟨_, _, _, hl⟩ <;> cases hl <;>
    exact Function.update_of_ne hne _ _

/-- A caller goes on with its blob, or its call has ended. -/
theorem CallStep.blob_or_idle {k : κ} (h : CallStep env s (.caller k) s') :
    (s'.callers k).blob = (s.callers k).blob ∨ s'.callers k = .idle := by
  cases h with
  | look =>
    left
    simp only [Function.update_self]
    exact look_blob
  | clone nonce hk henc htx | send hk hopen | insert hk =>
    left; simp only [Function.update_self, hk, CallPhase.blob]
  | reject | sendFail | ret => right; simp only [Function.update_self]

/-- A call that returns an ID was about to return that of its blob. -/
theorem returned_of_outcome {p p' : CallPhase} {id : ID} (h : p.outcome p' = .ok id) :
    ∃ c, p = .returned c ∧ c.id = id := by
  cases p with
  | returned c =>
    cases p' <;> simp only [CallPhase.outcome, CallOutcome.ok.injEq, reduceCtorEq] at h
    exact ⟨c, rfl, h⟩
  | _ => cases p' <;> cases h

end Call

end Pipe

/-! ## Runs of one client -/

/-- A client with its backend. -/
structure SaveSystem (κ : Type) (n : Nat) where
  backend : Backend
  pipe : Pipe κ n

namespace SaveSystem

variable {κ : Type} {n : Nat} {env : Env} {plain : ID → Bytes}

/-- A step of a client. -/
def Step [DecidableEq κ] (env : Env) (s : SaveSystem κ n) (l : PipeEvent κ) (s' : SaveSystem κ n) :
    Prop :=
  Pipe.Step env s.backend s.pipe l s'.backend s'.pipe

/-- A client that has loaded the index and started its pack saver. -/
def start (env : Env) (b : Backend) (num : b.Instances) : SaveSystem κ n :=
  ⟨b, .init (b.reloadMasterIndex env.toIndexEnv num)⟩

/-- The blob is in a persisted index, at a place of an existing pack that decodes to its bytes. -/
def Stored (env : Env) (b : Backend) (c : Blob) : Prop :=
  ∃ fid f l, b.index.lookup fid = some f ∧ (c.id, l) ∈ f.entries ∧
    b.loadFromPack env l = some c.data

/-- The invariant of a client, with the index files of its backend. -/
def Inv (env : Env) (plain : ID → Bytes) (s : SaveSystem κ n) : Prop :=
  s.pipe.Inv env plain Set.univ Set.univ s.backend ∧
    s.backend.IndexSound env plain Set.univ Set.univ

theorem Inv.start {b : Backend} {num : b.Instances} (h : b.Consistent env plain) :
    (start env b num : SaveSystem κ n).Inv env plain := by
  refine ⟨Pipe.Inv.init (.init Backend.wf_reload (fun _ _ => ⟨fun _ _ => trivial, trivial⟩) ?_ ?_)
    Backend.pendingBlobs_reload, fun fid f _ hf e he => ⟨trivial, h fid f hf e he⟩⟩
  · intro e he
    obtain ⟨fid, f, hf, hmem⟩ := Backend.mem_entries_reload.mp he
    exact ⟨trivial, h fid f hf e hmem⟩
  · rintro ix hix _ ⟨id, l⟩ he
    obtain ⟨fid, f, hf, rfl⟩ := Backend.mem_indices_reload.mp hix
    exact ⟨fid, f, l, trivial, hf, Index.mem_iterIds_fromIndexFile.mp he⟩

theorem Inv.step [DecidableEq κ] {s s' : SaveSystem κ n} {l : PipeEvent κ} (hl : l.Honest env plain)
    (h : s.Inv env plain) (hstep : Step env s l s') : s'.Inv env plain :=
  ⟨h.1.step hl hstep, (h.1.sound.writes hstep).indexSound h.2⟩

/-- **A successful flush has stored every saved blob.** For any interleaving of the callers with the
saver, its workers and the flush, and any failures of writes, a flush that has returned has either
returned an error, or every blob whose call returned `Ok` is in a persisted index and can be read
back. -/
theorem flush_stores_saved_blobs [DecidableEq κ] {b : Backend} {num : b.Instances}
    {s : SaveSystem κ n} {ls : List (PipeEvent κ)} (hb : b.Consistent env plain)
    (hls : ∀ l ∈ ls, l.Honest env plain) (hrun : Run (Step env) (start env b num) ls s) {ok : Bool}
    (hflush : s.pipe.flush = .finished ok) :
    ok = false ∨ ∀ c ∈ s.pipe.saved, Stored env s.backend c := by
  have hinv : s.Inv env plain :=
    hrun.invariant_of_labels (fun _ _ _ hl h hstep => h.step hl hstep) hls (.start hb)
  cases ok with
  | false => exact Or.inl rfl
  | true =>
    refine Or.inr fun c hc => ?_
    obtain ⟨fid, f, l, -, hf, hl⟩ := hinv.1.indexed_of_flush hflush (hinv.1.known.saved c hc)
    refine ⟨fid, f, l, hf, hl, ?_⟩
    rw [(hinv.1.sound.saved c hc).data]
    exact (hinv.2 fid f trivial hf _ hl).2.loadFromPack

/-- A run goes on with a step of the pipeline. -/
theorem run_snoc [DecidableEq κ] {s₀ : SaveSystem κ n} {ls : List (PipeEvent κ)} {b b' : Backend}
    {p p' : Pipe κ n} {l : PipeEvent κ} (h : Run (Step env) s₀ ls ⟨b, p⟩)
    (hstep : Pipe.Step env b p l b' p') : Run (Step env) s₀ (ls ++ [l]) ⟨b', p'⟩ :=
  h.snoc hstep

end SaveSystem

/-! ## A concrete run -/

/-- A linear search: one of the ways a binary search may choose among equal keys. -/
def linearSearch : BinarySearch where
  find := fun vec id => (vec.find? fun e => e.1 = id).map Prod.snd
  sound := by
    intro vec id loc h
    rw [Option.map_eq_some_iff] at h
    obtain ⟨⟨id', loc'⟩, hfind, rfl⟩ := h
    have hid : id' = id := by simpa using List.find?_some hfind
    exact hid ▸ List.mem_of_find?_eq_some hfind
  complete := by
    intro vec id loc _ hmem
    rw [Option.isSome_map, List.find?_isSome]
    exact ⟨(id, loc), hmem, by simp⟩

/-- Parameters for concrete runs. Blobs of one byte are their own hash. -/
def sampleEnv : Env where
  search := linearSearch
  bloomShape := fun _ => ⟨1, 8⟩
  blobsPerIndexFile := 100
  storage := headerStorage
  fromContent := fun bs => Fin.ofNat _ (bs.headD 0).toNat
  maxPackerSize := 1000

/-- The plaintexts of the concrete runs. -/
def samplePlain (id : ID) : Bytes := [UInt8.ofNat id.val]

/-- The padding that the concrete runs draw. -/
def samplePadding (_ : Nat) : PackedBlobDescriptor := ⟨200, .padding, 0, 0, 0⟩

/-- A repository without files. -/
def emptyBackend : Backend := ⟨∅, ∅, ∅, ∅⟩

/-- There is no file to number. -/
def emptyInstances : emptyBackend.Instances where
  inst := fun _ => 0
  next := 1
  inj := fun _ _ _ _ h => by cases h
  lt := fun _ _ h => by cases h

theorem consistent_emptyBackend : emptyBackend.Consistent sampleEnv samplePlain := by
  intro fid f hf
  cases hf

/-- The blob that the concrete runs save. -/
def sampleBlob (t : BlobType) : Blob := ⟨5, t, [5]⟩

section Sample

open SaveSystem Pipe

/-- One caller saves one data blob, one worker stores it, and the flush succeeds. -/
theorem exists_run_data : ∃ ls s, Run (SaveSystem.Step sampleEnv)
      (start sampleEnv emptyBackend emptyInstances : SaveSystem Unit 1) ls s ∧
    (∀ l ∈ ls, l.Honest sampleEnv samplePlain) ∧ s.pipe.flush = .finished true ∧
    s.pipe.saved = [sampleBlob .data] ∧
    (∀ pack, PipeEvent.register pack ∈ ls → ∀ d ∈ pack.descriptors, d.blobType = .padding →
      d.id ≠ 5) ∧
    ∃ pack, PipeEvent.register pack ∈ ls ∧
      pack.descriptors = Packer.pad samplePadding [⟨5, .data, 0, 2, 1⟩] := by
  have h₀ : Run (SaveSystem.Step sampleEnv)
      (start sampleEnv emptyBackend emptyInstances : SaveSystem Unit 1) [] _ := .nil
  -- the call
  have h₁ := run_snoc h₀ (.call (.call (k := ()) .data [5] .calculateID rfl))
  have h₂ := run_snoc h₁ (.call (.look (k := ())))
  have h₃ := run_snoc h₂ (.call (.look (k := ())))
  have h₄ := run_snoc h₃ (.call (.clone (k := ()) sampleNonce rfl rfl rfl))
  have h₅ := run_snoc h₄ (.call (.send (k := ()) rfl rfl))
  have h₆ := run_snoc h₅ (.call (.look (k := ())))
  have h₇ := run_snoc h₆ (.call (.look (k := ())))
  have h₈ := run_snoc h₇ (.call (.insert (k := ()) rfl))
  have h₉ := run_snoc h₈ (.call (.ret (k := ()) rfl))
  -- the saver packs the blob, sees the queue closed and hands the packer over
  have p₁ := run_snoc h₉ (.saver (.start rfl))
  have p₂ := run_snoc p₁ (.saver (.add rfl rfl rfl rfl))
  have p₃ := run_snoc p₂ (.flush (.take rfl))
  have p₄ := run_snoc p₃ (.saver (.close rfl rfl rfl fun _ => rfl))
  have p₅ := run_snoc p₄ (.saver (.take rfl (by decide) rfl))
  have p₆ := run_snoc p₅ (.saver (.send rfl))
  have p₇ := run_snoc p₆ (.saver (.dispatchEmpty rfl rfl))
  -- the worker uploads and registers the pack
  have w₁ := run_snoc p₇ (.worker (.recv (w := 0) rfl rfl))
  have w₂ := run_snoc w₁ (.worker (.finalize (w := 0) sampleNonce samplePadding rfl rfl rfl))
  have w₃ := run_snoc w₂ (.worker (.upload (w := 0) rfl ⟨rfl, rfl, by decide⟩))
  have w₄ := run_snoc w₃ (.worker (.register (w := 0) false rfl))
  have w₅ := run_snoc w₄ (.worker (.recycle (w := 0) rfl rfl))
  have w₆ := run_snoc w₅ (.worker (.closed (w := 0) rfl rfl rfl))
  have w₇ := run_snoc w₆ (.saver (.join rfl fun w => match w with | ⟨0, _⟩ => rfl))
  -- the flush writes the index
  have f₁ := run_snoc w₇ (.flush (.joinOk rfl rfl))
  have f₂ := run_snoc f₁ (.flush (.persist 9 rfl ⟨rfl, rfl, by decide⟩))
  have f₃ := run_snoc f₂ (.flush (.mark rfl))
  have f₄ := run_snoc f₃ (.flush (.done rfl))
  refine ⟨_, _, f₄, ?_, rfl, rfl, ?_, ?_⟩
  · simp only [List.nil_append, List.cons_append, List.forall_mem_cons, PipeEvent.Honest,
      List.not_mem_nil, false_implies, implies_true, and_true]
    exact ⟨rfl, by decide⟩
  · intro pack hpack d hd ht
    simp only [List.nil_append, List.cons_append, List.mem_cons, List.not_mem_nil, or_false,
      reduceCtorEq, false_or, PipeEvent.register.injEq] at hpack
    subst hpack
    rcases List.mem_append.mp hd with hblob | hpad
    · have hd' : d ∈ [(⟨5, .data, 0, 2, 1⟩ : PackedBlobDescriptor)] := hblob
      rw [List.mem_singleton.mp hd'] at ht
      cases ht
    · obtain ⟨i, _, rfl⟩ := List.mem_map.mp hpad
      show (200 : ID) ≠ 5
      decide
  · simp only [List.nil_append, List.cons_append, List.mem_cons, List.not_mem_nil, or_false,
      reduceCtorEq, false_or, PipeEvent.register.injEq, exists_eq_left]
    rfl

/-- The data blob of the concrete run is stored. -/
theorem sample_blob_is_stored : ∃ s : SaveSystem Unit 1, s.pipe.flush = .finished true ∧
    s.pipe.saved = [sampleBlob .data] ∧ Stored sampleEnv s.backend (sampleBlob .data) := by
  obtain ⟨ls, s, hrun, hhonest, hflush, hsaved, -, -⟩ := exists_run_data
  refine ⟨s, hflush, hsaved, ?_⟩
  rcases flush_stores_saved_blobs consistent_emptyBackend hhonest hrun hflush with hfail | hstored
  · cases hfail
  · exact hstored _ (by rw [hsaved]; exact List.mem_singleton_self _)

end Sample

end Mapache
