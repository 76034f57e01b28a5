import Mapache.Repository.SaveBlob

/-!
# Deduplication and blob types

`encode_and_save_blob` asks `MasterIndex::contains`, which knows a blob under any type, while a
restore asks `MasterIndex::get_data`, which only knows data. So the type of a blob is decided by the
first call that saves it: `Pipe.Ordered` is the invariant behind that, for one caller that makes its
calls one after the other.

A file whose bytes are those of a tree that was saved before is not stored as data, and its restore
fails (`data_saved_after_tree_is_not_found`). `saved_data_is_found_iff` says that this is the only
way: the calls that save data find it again exactly when the index had it as data at the start, or
did not have it and the first call for it saved data.

The padding of a pack has random IDs, and registering the pack takes them out of the pending set.
`P` is the set of these IDs; nothing is said about a blob whose ID is drawn as padding.
-/

set_option autoImplicit false

namespace Mapache

open Lib

namespace Pipe

variable {n : Nat} {env : Env} {plain : ID → Bytes}
  {G : Set (ID × BlobLocator)} {F : Set ID}

section Origin

variable {κ : Type} {b b' : Backend} {s s' : Pipe κ n} {id : ID} {t : BlobType}

/-- What the saver carries was carried before. -/
theorem Carried.of_saverStep (hs : s.Sound env plain G F b) (herr : s.firstErr = false)
    (hstep : SaverStep env s s') (hc : s'.Carried id t) : s.Carried id t := by
  cases hc with
  | entry hmem ht => cases hstep <;> exact .entry hmem ht
  | queue hmem hid ht =>
    cases hstep with
    | skip hsv hq | add hsv hq | addFail hsv hq =>
      exact .queue (by rw [hq]; exact List.mem_cons_of_mem _ hmem) hid ht
    | _ => exact .queue hmem hid ht
  | packer x hp =>
    cases hstep with
    | @add r q x' p hsv hq hr hadd =>
      by_cases heq : x = x'
      · subst heq
        simp only [Function.update_self] at hp
        obtain ⟨d, hd, hid, ht⟩ := hp
        rcases Packer.mem_descriptors_of_addBlob hadd hd with hold | ⟨hid', ht'⟩
        · exact .packer x ⟨d, hold, hid, ht⟩
        · exact .queue (by rw [hq]; exact List.mem_cons_self) (hid'.symm.trans hid)
            (ht'.symm.trans ht)
      · simp only [Function.update_of_ne heq] at hp
        exact .packer x hp
    | @take x' next p ps hsv hne hpool =>
      by_cases heq : x = x'
      · -- a packer from the pool is empty
        subst heq
        simp only [Function.update_self] at hp
        exact absurd hp (hs.pool herr p (by rw [hpool]; exact List.mem_cons_self)).not_has
      · simp only [Function.update_of_ne heq] at hp
        exact .packer x hp
    | _ => exact .packer x hp
  | @hand p next hsv' hp =>
    cases hstep with
    | start hsv | startFail hsv | addFail hsv | close hsv | disconnect hsv | join hsv => cases hsv'
    | skip hsv => exact .hand hsv' hp
    | add hsv =>
      dsimp only at hsv'
      split at hsv' <;> cases hsv'
    | @dispatchEmpty x next' hsv => cases next' <;> cases hsv'
    | @take x next' p' ps hsv hne hpool =>
      cases hsv'
      exact .packer x hp
    | @send p' next' hsv => cases next' <;> cases hsv'
  | full hmem hp =>
    cases hstep with
    | send hsv =>
      rcases List.mem_append.mp hmem with hold | hnew
      · exact .full hold hp
      · rw [List.mem_singleton.mp hnew] at hp
        exact .hand hsv hp
    | _ => exact .full hmem hp
  | worker w hw => cases hstep <;> exact .worker w hw

/-- What a worker carries was carried before. -/
theorem Carried.of_workerStep {l : PipeEvent κ} (ht : t ≠ .padding)
    (hstep : WorkerStep env b s l b' s') (hc : s'.Carried id t) : s.Carried id t := by
  cases hc with
  | @entry l hmem hlt =>
    cases hstep with
    | @register _ w pack timedOut hw =>
      rcases MasterIndex.mem_entries_addPackLocked hmem with hold | ⟨d, hd, _, rfl, rfl⟩
      · exact .entry hold hlt
      · exact .worker w (by rw [hw]; exact ⟨d, hd, rfl, hlt⟩)
    | mark hw =>
      simp only [MasterIndex.entries_setPersisted] at hmem
      exact .entry hmem hlt
    | _ => exact .entry hmem hlt
  | queue hmem hid hlt =>
    have hq := hstep.frame.2.2.1
    exact .queue (hq ▸ hmem) hid hlt
  | packer x hp =>
    have hpk := hstep.frame.2.2.2.2.1
    exact .packer x (hpk ▸ hp)
  | hand hsv hp =>
    have hsame := hstep.frame.1
    exact .hand (hsame ▸ hsv) hp
  | full hmem hp =>
    cases hstep with
    | recv hw hf => exact .full (by rw [hf]; exact List.mem_cons_of_mem _ hmem) hp
    | _ => exact .full hmem hp
  | worker w' hhas =>
    -- the worker itself may have taken the blob from the channel
    have hother : ∀ {w : Fin n} {p : WorkerPhase}, (p.Has id t → s.Carried id t) →
        (Function.update s.workers w p w').Has id t → s.Carried id t := by
      intro w p hp hupd
      by_cases heq : w' = w
      · subst heq
        rw [Function.update_self] at hupd
        exact hp hupd
      · rw [Function.update_of_ne heq] at hupd
        exact .worker w' hupd
    cases hstep with
    | @recv _ w p ps hw hf =>
      have hmem : p ∈ s.full := by
        rw [hf]
        exact List.mem_cons_self
      exact hother (p := .got p) (fun hp => .full hmem hp) hhas
    | @finalize _ w p nonce rand pack hw herr hfin =>
      refine hother ?_ hhas
      rintro ⟨d, hd, hid, hdt⟩
      rw [Packer.descriptors_finalize hfin] at hd
      rcases Packer.mem_pad hd with hold | hpad
      · exact .worker w (by rw [hw]; exact ⟨d, hold, hid, hdt⟩)
      · exact absurd (hdt.symm.trans hpad) ht
    | @upload _ w pack hw hfresh => exact hother (fun hp => .worker w (by rw [hw]; exact hp)) hhas
    | register timedOut hw =>
      refine hother ?_ hhas
      split <;> exact False.elim
    | closed | abandon | finalizeEmpty | finalizeFail | giveEmptied | uploadFail | persist
    | persistFail | mark | recycle | recycleClosed | fail | giveBack =>
      exact hother False.elim hhas

theorem Carried.of_flushStep {l : PipeEvent κ} (hstep : FlushStep b s l b' s')
    (hc : s'.Carried id t) : s.Carried id t := by
  cases hc with
  | entry hmem hlt =>
    cases hstep with
    | joinOk hf hsv =>
      simp only [MasterIndex.entries_finalizeAll] at hmem
      exact .entry hmem hlt
    | mark hf =>
      simp only [MasterIndex.entries_setPersisted] at hmem
      exact .entry hmem hlt
    | _ => exact .entry hmem hlt
  | queue hmem hid hlt => cases hstep <;> exact .queue hmem hid hlt
  | packer x hp => cases hstep <;> exact .packer x hp
  | hand hsv hp => cases hstep <;> exact .hand hsv hp
  | full hmem hp => cases hstep <;> exact .full hmem hp
  | worker w hw => cases hstep <;> exact .worker w hw

/-- What is carried after a step of a caller was carried before, or the step has sent it. -/
theorem Carried.of_callStep [DecidableEq κ] {l : PipeEvent κ} (hstep : CallStep env s l s')
    (hc : s'.Carried id t) : s.Carried id t ∨ ∃ k c e, s.callers k = .sending c e ∧ id = c.id ∧
      t = c.blobType ∧ (s'.callers k).sent = some c ∧ s'.saved = s.saved := by
  cases hc with
  | entry hmem hlt => cases hstep <;> exact Or.inl (.entry hmem hlt)
  | queue hmem hid hlt =>
    cases hstep with
    | @send k c encoded hk hopen =>
      rcases List.mem_append.mp hmem with hold | hnew
      · exact Or.inl (.queue hold hid hlt)
      · rw [List.mem_singleton.mp hnew] at hid hlt
        refine Or.inr ⟨k, c, encoded, hk, hid.symm, hlt.symm, ?_, rfl⟩
        simp only [Function.update_self]
        rfl
    | _ => exact Or.inl (.queue hmem hid hlt)
  | packer x hp => cases hstep <;> exact Or.inl (.packer x hp)
  | hand hsv hp => cases hstep <;> exact Or.inl (.hand hsv hp)
  | full hmem hp => cases hstep <;> exact Or.inl (.full hmem hp)
  | worker w hw => cases hstep <;> exact Or.inl (.worker w hw)

end Origin

/-! ## One call after the other -/

/-- The calls that a single caller has made and sent or was told about, in order. -/
def log (s : Pipe Unit n) : List Blob := s.saved ++ (s.callers ()).sent.toList

/-- The type of the blob was decided by an entry of the index at the start, or, for a blob that the
index did not have, by the first call of the log. -/
def Decides (e₀ : List (ID × BlobLocator)) (log : List Blob) (id : ID) (t : BlobType) : Prop :=
  (∃ l, (id, l) ∈ e₀ ∧ l.blobType = t) ∨
    ((∀ l, (id, l) ∉ e₀) ∧ ∃ c, log.find? (fun c => c.id = id) = some c ∧ c.blobType = t)

/-- The index in memory has an entry for the blob. -/
def Listed (s : Pipe Unit n) (id : ID) : Prop := ∃ l, (id, l) ∈ s.index.entries

/-- What a single caller knows. A blob it was told about is pending or in the index, and a call that
goes on to send saves a blob for the first time. -/
def CallerKnows (e₀ : List (ID × BlobLocator)) (P : Set ID) (s : Pipe Unit n) : CallPhase → Prop
  | .returned c => c.id ∉ P → c.id ∈ s.index.pendingBlobs ∨ s.Listed c.id
  | .lookup c => c.id ∉ P → ∀ c' ∈ s.saved, c'.id = c.id → s.Listed c.id
  | .cloning c | .sending c _ => c.id ∉ P → (∀ c' ∈ s.saved, c'.id ≠ c.id) ∧ ∀ l, (c.id, l) ∉ e₀
  | .idle | .checking _ | .noting _ | .notingIndex _ | .inserting _ => True

/-- What holds of a pipeline with a single caller: entries keep their types, every blob on the way
has the type that `Decides`, and a saved blob is pending or in the index. -/
structure Ordered (e₀ : List (ID × BlobLocator)) (P : Set ID) (s : Pipe Unit n) : Prop where
  kept : ∀ id l, (id, l) ∈ e₀ → ∃ l', (id, l') ∈ s.index.entries ∧ l'.blobType = l.blobType
  saved : ∀ c ∈ s.saved, c.id ∉ P → c.id ∈ s.index.pendingBlobs ∨ s.Listed c.id
  caller : s.CallerKnows e₀ P (s.callers ())
  types : s.firstErr = false → ∀ id t, id ∉ P → t ≠ .padding → s.Carried id t →
    Decides e₀ s.log id t

section Single

variable {b b' : Backend} {s s' : Pipe Unit n} {e₀ : List (ID × BlobLocator)} {P : Set ID}

theorem Decides.append {log : List Blob} {id : ID} {t : BlobType} (h : Decides e₀ log id t)
    (more : List Blob) : Decides e₀ (log ++ more) id t := by
  rcases h with hold | ⟨hnew, c, hfind, ht⟩
  · exact Or.inl hold
  · exact Or.inr ⟨hnew, c, by rw [List.find?_append, hfind]; rfl, ht⟩

/-- A step of the other threads: the caller does not move, entries keep their types, and a pending
blob stays pending or gets an entry. -/
theorem Ordered.frame (h : s.Ordered e₀ P) (hcallers : s'.callers = s.callers)
    (hsaved : s'.saved = s.saved)
    (hlisted : ∀ id l, (id, l) ∈ s.index.entries →
      ∃ l', (id, l') ∈ s'.index.entries ∧ l'.blobType = l.blobType)
    (hpending : ∀ id, id ∉ P → id ∈ s.index.pendingBlobs →
      id ∈ s'.index.pendingBlobs ∨ s'.Listed id)
    (hcarried : s'.firstErr = false → s.firstErr = false ∧
      ∀ id t, t ≠ .padding → s'.Carried id t → s.Carried id t) : s'.Ordered e₀ P := by
  have hknown : ∀ id, id ∉ P → id ∈ s.index.pendingBlobs ∨ s.Listed id →
      id ∈ s'.index.pendingBlobs ∨ s'.Listed id := by
    rintro id hP (hpend | ⟨l, hl⟩)
    · exact hpending id hP hpend
    · obtain ⟨l', hl', _⟩ := hlisted id l hl
      exact Or.inr ⟨l', hl'⟩
  refine { kept := ?_, saved := ?_, caller := ?_, types := ?_ }
  · intro id l hl
    obtain ⟨l', hl', ht'⟩ := h.kept id l hl
    obtain ⟨l'', hl'', ht''⟩ := hlisted id l' hl'
    exact ⟨l'', hl'', ht''.trans ht'⟩
  · rw [hsaved]
    exact fun c hc hP => hknown c.id hP (h.saved c hc hP)
  · rw [hcallers]
    have hc := h.caller
    cases hp : s.callers () with
    | returned c =>
      rw [hp] at hc
      exact fun hP => hknown c.id hP (hc hP)
    | lookup c =>
      rw [hp] at hc
      intro hP
      rw [hsaved]
      intro c' hc' heq
      obtain ⟨l, hl⟩ := hc hP c' hc' heq
      obtain ⟨l', hl', _⟩ := hlisted c.id l hl
      exact ⟨l', hl'⟩
    | cloning c | sending c e =>
      rw [hp] at hc
      intro hP
      rw [hsaved]
      exact hc hP
    | idle | checking c | noting c | notingIndex c | inserting c => trivial
  · intro herr id t hP ht hc
    have hlog : s'.log = s.log := by rw [log, log, hcallers, hsaved]
    rw [hlog]
    exact h.types (hcarried herr).1 id t hP ht ((hcarried herr).2 id t ht hc)

/-- A lookup goes on with the blob it has, or returns it. -/
theorem sent_look (env : Env) (p : CallPhase) (mi : MasterIndex) :
    ∃ more, ((p.look env.toIndexEnv mi).sent).toList = p.sent.toList ++ more := by
  cases p with
  | checking c | lookup c =>
    simp only [CallPhase.look]
    split
    · exact ⟨[c], rfl⟩
    · exact ⟨[], rfl⟩
  | noting c | notingIndex c =>
    simp only [CallPhase.look]
    split <;> exact ⟨[], rfl⟩
  | idle | cloning c | sending c e | inserting c | returned c => exact ⟨[], (List.append_nil _).symm⟩

/-- The log of a single caller only grows. -/
theorem CallStep.log_append {l : PipeEvent Unit} (hstep : CallStep env s l s') :
    ∃ more, s'.log = s.log ++ more := by
  cases hstep with
  | call t data saveId hk | reject hk hwhy | clone nonce hk henc htx | sendFail hk hend
  | insert hk | ret hk => exact ⟨[], by simp [log, hk, CallPhase.sent]⟩
  | @look k =>
    obtain ⟨more, hmore⟩ := sent_look env (s.callers k) s.index
    refine ⟨more, ?_⟩
    simp only [log, Function.update_self, hmore, List.append_assoc]
  | @send k c encoded hk hopen => exact ⟨[c], by simp [log, hk, CallPhase.sent]⟩

/-- A blob that a single caller sends is new to the log. -/
theorem Ordered.types_callStep {l : PipeEvent Unit} (h : s.Ordered e₀ P)
    (hstep : CallStep env s l s') (herr : s'.firstErr = false) (id : ID) (t : BlobType) (hP : id ∉ P)
    (ht : t ≠ .padding) (hc : s'.Carried id t) : Decides e₀ s'.log id t := by
  have herr' : s.firstErr = false := by cases hstep <;> exact herr
  rcases hc.of_callStep hstep with hold | ⟨k, c, e, hk, rfl, rfl, hsent, hsaved⟩
  · obtain ⟨more, hlog⟩ := hstep.log_append
    rw [hlog]
    exact (h.types herr' id t hP ht hold).append more
  · have hknows := h.caller
    rw [show s.callers () = .sending c e from hk] at hknows
    obtain ⟨hnone, hnew⟩ := hknows hP
    refine Or.inr ⟨hnew, c, ?_, rfl⟩
    have hlog : s'.log = s.saved ++ [c] := by
      rw [log, hsaved, show (s'.callers ()).sent = some c from hsent]
      rfl
    have hfind : s.saved.find? (fun c' => c'.id = c.id) = none := by
      rw [List.find?_eq_none]
      exact fun c' hc' => by simpa using hnone c' hc'
    rw [hlog, List.find?_append, hfind]
    simp

/-- What a lookup tells a single caller. -/
theorem Ordered.look (h : s.Ordered e₀ P) (hwf : s.index.WF) :
    s.CallerKnows e₀ P ((s.callers ()).look env.toIndexEnv s.index) := by
  have hc := h.caller
  cases hp : s.callers () with
  | checking c =>
    simp only [CallPhase.look]
    split
    · exact fun _ => Or.inl ‹_›
    · -- not pending, so a saved blob is in the index
      rename_i hpend
      intro hP c' hc' heq
      rcases h.saved c' hc' (heq ▸ hP) with hpend' | hlisted
      · exact absurd (heq ▸ hpend') hpend
      · exact heq ▸ hlisted
  | lookup c =>
    rw [hp] at hc
    simp only [CallPhase.look]
    split
    · exact fun _ => Or.inr (MasterIndex.exists_mem_of_indexContains ‹_›)
    · rename_i hmiss
      have hnot : ¬ s.Listed c.id := fun hl => hmiss (hwf.indexContains_iff.mpr hl)
      intro hP
      refine ⟨fun c' hc' heq => hnot (hc hP c' hc' heq), ?_⟩
      intro l hl
      obtain ⟨l', hl', _⟩ := h.kept c.id l hl
      exact hnot ⟨l', hl'⟩
  | noting c =>
    simp only [CallPhase.look]
    split
    · exact fun _ => Or.inl ‹_›
    · trivial
  | notingIndex c =>
    simp only [CallPhase.look]
    split
    · exact fun _ => Or.inr (MasterIndex.anyIndexContains_iff.mp ‹_›)
    · trivial
  | idle | cloning c | sending c e | inserting c | returned c =>
    rw [hp] at hc
    exact hc

/-- One call after the other: a step of the caller. -/
theorem Ordered.callStep {l : PipeEvent Unit} (h : s.Ordered e₀ P) (hwf : s.index.WF)
    (hstep : CallStep env s l s') : s'.Ordered e₀ P := by
  have htypes := h.types_callStep hstep
  have hc := h.caller
  cases hstep with
  | call | reject | send | sendFail => exact { h with caller := trivial, types := htypes }
  | look => exact { h with caller := h.look hwf, types := htypes }
  | @clone k c nonce encoded hk henc htx =>
    rw [show s.callers () = .cloning c from hk] at hc
    exact { h with caller := hc, types := htypes }
  | @insert k c hk =>
    refine { kept := h.kept, saved := ?_, caller := ?_, types := htypes }
    · intro c' hc' hP
      exact (h.saved c' hc' hP).imp_left (Finset.mem_insert_of_mem ·)
    · exact fun _ => Or.inl (Finset.mem_insert_self _ _)
  | @ret k c hk =>
    rw [show s.callers () = .returned c from hk] at hc
    refine { kept := h.kept, saved := ?_, caller := trivial, types := htypes }
    intro c' hc' hP
    rcases List.mem_append.mp hc' with hold | hnew
    · exact h.saved c' hold hP
    · rw [List.mem_singleton.mp hnew] at hP ⊢
      exact hc hP

theorem Ordered.saverStep (h : s.Ordered e₀ P) (hs : s.Sound env plain G F b)
    (hstep : SaverStep env s s') : s'.Ordered e₀ P := by
  have hcarried : s'.firstErr = false → s.firstErr = false ∧
      ∀ id t, t ≠ .padding → s'.Carried id t → s.Carried id t := by
    intro herr
    have herr' : s.firstErr = false := by cases hstep <;> exact herr
    exact ⟨herr', fun id t _ hc => hc.of_saverStep hs herr' hstep⟩
  cases hstep <;>
    exact h.frame rfl rfl (fun id l hl => ⟨l, hl, rfl⟩) (fun id _ hid => Or.inl hid) hcarried

/-- Registering a pack takes a blob out of the pending set when it gives it an entry, or when its ID
was drawn as padding. -/
theorem Ordered.workerStep {l : PipeEvent Unit} (h : s.Ordered e₀ P) (hs : s.Sound env plain G F b)
    (hP : ∀ pack, l = .register pack → ∀ d ∈ pack.descriptors, d.blobType = .padding → d.id ∈ P)
    (hstep : WorkerStep env b s l b' s') : s'.Ordered e₀ P := by
  have hcarried : s'.firstErr = false → s.firstErr = false ∧
      ∀ id t, t ≠ .padding → s'.Carried id t → s.Carried id t := by
    intro herr
    refine ⟨?_, fun id t ht hc => hc.of_workerStep ht hstep⟩
    by_contra hne
    rw [Bool.not_eq_false] at hne
    rw [hstep.frame.2.2.2.2.2.2 hne] at herr
    cases herr
  cases hstep with
  | @register _ w pack timedOut hw =>
    refine h.frame rfl rfl ?_ ?_ hcarried
    · exact fun id l hl => MasterIndex.addPackLocked_complete env.toIndexEnv pack.id
        pack.descriptors timedOut hl
    · intro id hid hpend
      by_cases hmem : id ∈ (pack.descriptors.map PackedBlobDescriptor.id).toFinset
      · rw [List.mem_toFinset, List.mem_map] at hmem
        obtain ⟨d, hd, rfl⟩ := hmem
        by_cases hpad : d.blobType = .padding
        · exact absurd (hP pack rfl d hd hpad) hid
        · obtain ⟨l, hl, _⟩ := MasterIndex.addPackLocked_self hs.index.isMutable env.toIndexEnv
            pack.id timedOut hd hpad
          exact Or.inr ⟨l, hl⟩
      · exact Or.inl (Finset.mem_sdiff.mpr ⟨hpend, hmem⟩)
  | mark hw =>
    refine h.frame rfl rfl (fun id l hl => ⟨l, ?_, rfl⟩) (fun id _ hid => Or.inl hid) hcarried
    rw [MasterIndex.entries_setPersisted]
    exact hl
  | _ => exact h.frame rfl rfl (fun id l hl => ⟨l, hl, rfl⟩) (fun id _ hid => Or.inl hid) hcarried

theorem Ordered.flushStep {l : PipeEvent Unit} (h : s.Ordered e₀ P) (hstep : FlushStep b s l b' s') :
    s'.Ordered e₀ P := by
  have hcarried : s'.firstErr = false → s.firstErr = false ∧
      ∀ id t, t ≠ .padding → s'.Carried id t → s.Carried id t := by
    intro herr
    have herr' : s.firstErr = false := by cases hstep <;> exact herr
    exact ⟨herr', fun id t _ hc => hc.of_flushStep hstep⟩
  cases hstep with
  | joinOk hf hsv =>
    refine h.frame rfl rfl (fun id l hl => ⟨l, ?_, rfl⟩) (fun id _ hid => Or.inl hid) hcarried
    rw [MasterIndex.entries_finalizeAll]
    exact hl
  | mark hf =>
    refine h.frame rfl rfl (fun id l hl => ⟨l, ?_, rfl⟩) (fun id _ hid => Or.inl hid) hcarried
    rw [MasterIndex.entries_setPersisted]
    exact hl
  | _ => exact h.frame rfl rfl (fun id l hl => ⟨l, hl, rfl⟩) (fun id _ hid => Or.inl hid) hcarried

end Single

end Pipe

namespace SaveSystem

variable {n : Nat} {env : Env} {plain : ID → Bytes}

/-- The padding of the packs that a step registers has IDs from `P`. -/
def PadsFrom {κ : Type} (P : Set ID) (l : PipeEvent κ) : Prop :=
  ∀ pack, l = .register pack → ∀ d ∈ pack.descriptors, d.blobType = .padding → d.id ∈ P

theorem ordered_step {s s' : SaveSystem Unit n} {l : PipeEvent Unit} {P : Set ID}
    {e₀ : List (ID × BlobLocator)} (hP : PadsFrom P l) (hinv : s.Inv env plain)
    (h : s.pipe.Ordered e₀ P) (hstep : Step env s l s') : s'.pipe.Ordered e₀ P := by
  obtain ⟨b, p⟩ := s
  obtain ⟨b', p'⟩ := s'
  cases hstep with
  | call hcall => exact h.callStep hinv.1.sound.index hcall
  | saver hsaver => exact h.saverStep hinv.1.sound hsaver
  | worker hworker => exact h.workerStep hinv.1.sound hP hworker
  | flush hflush => exact h.flushStep hflush

/-- Nothing is on the way when a client starts, so every blob has its type from the index. -/
theorem ordered_start {b : Backend} {num : b.Instances} {P : Set ID} :
    (start env b num : SaveSystem Unit n).pipe.Ordered
      (b.reloadMasterIndex env.toIndexEnv num).entries P where
  kept := fun id l hl => ⟨l, hl, rfl⟩
  saved := fun c hc => (by cases hc)
  caller := trivial
  types := by
    intro _ id t _ _ hc
    cases hc with
    | @entry l hmem ht => exact Or.inl ⟨l, hmem, ht⟩
    | queue hmem => cases hmem
    | packer x hp => exact absurd hp Packer.Blank.new.not_has
    | hand hsv => cases hsv
    | full hmem => cases hmem
    | worker w hw => exact hw.elim

/-- A saved blob is found in the saved part of the log. -/
theorem decides_saved {e₀ : List (ID × BlobLocator)} {p : Pipe Unit n} {c : Blob} {t : BlobType}
    (hc : c ∈ p.saved) (h : Pipe.Decides e₀ p.log c.id t) : Pipe.Decides e₀ p.saved c.id t := by
  rcases h with hold | ⟨hnone, c', hfind, ht⟩
  · exact Or.inl hold
  · refine Or.inr ⟨hnone, c', ?_, ht⟩
    rw [Pipe.log, List.find?_append] at hfind
    have hsome : (p.saved.find? fun c' => c'.id = c.id).isSome = true := by
      rw [List.find?_isSome]
      exact ⟨c, hc, by simp⟩
    obtain ⟨c'', hc''⟩ := Option.isSome_iff_exists.mp hsome
    rw [hc''] at hfind ⊢
    exact hfind

/-- **When saved data is found as data.** After a sequence of calls and a successful flush, every
blob that was saved as data is found by `get_data` exactly when each of them was in the index as
data at the start, or was not in the index and the first call for it saved data. -/
theorem saved_data_is_found_iff {b : Backend} {num : b.Instances} {s : SaveSystem Unit n}
    {ls : List (PipeEvent Unit)} (hb : b.Consistent env plain)
    (hls : ∀ l ∈ ls, l.Honest env plain)
    (hpad : ∀ pack, PipeEvent.register pack ∈ ls → ∀ d ∈ pack.descriptors, d.blobType = .padding →
      ∀ c ∈ s.pipe.saved, d.id ≠ c.id)
    (hrun : Run (Step env) (start env b num) ls s) (hflush : s.pipe.flush = .finished true) :
    (∀ c ∈ s.pipe.saved, c.blobType = .data →
        (s.pipe.index.getData env.toIndexEnv c.id).isSome = true) ↔
      ∀ c ∈ s.pipe.saved, c.blobType = .data → Pipe.Decides
        (b.reloadMasterIndex env.toIndexEnv num).entries s.pipe.saved c.id .data := by
  -- the IDs that were drawn as padding in this run
  let P : Set ID := { id | ∃ pack, PipeEvent.register pack ∈ ls ∧
    ∃ d ∈ pack.descriptors, d.blobType = .padding ∧ d.id = id }
  have hinv : s.Inv env plain ∧
      s.pipe.Ordered (b.reloadMasterIndex env.toIndexEnv num).entries P := by
    refine hrun.invariant_of_labels (Q := fun l => l.Honest env plain ∧ PadsFrom P l)
      (P := fun s => s.Inv env plain ∧
        s.pipe.Ordered (b.reloadMasterIndex env.toIndexEnv num).entries P) ?_ ?_
      ⟨.start hb, ordered_start⟩
    · rintro s l s' ⟨hl, hP⟩ ⟨hinv, hord⟩ hstep
      exact ⟨hinv.step hl hstep, ordered_step hP hinv hord hstep⟩
    · intro l hl
      refine ⟨hls l hl, ?_⟩
      rintro pack rfl d hd ht
      exact ⟨pack, hl, d, hd, ht, rfl⟩
  obtain ⟨hinv, hord⟩ := hinv
  have hfin := (hinv.1.settled.flush [] (by rw [hflush]; rfl)).1
  have hP : ∀ c ∈ s.pipe.saved, c.id ∉ P := by
    rintro c hc ⟨pack, hpack, d, hd, ht, heq⟩
    exact hpad pack hpack d hd ht c hc heq
  -- an entry of a saved blob has the type that was decided
  have htypes : ∀ c ∈ s.pipe.saved, ∀ l, (c.id, l) ∈ s.pipe.index.entries →
      Pipe.Decides (b.reloadMasterIndex env.toIndexEnv num).entries s.pipe.saved c.id l.blobType := by
    intro c hc l hl
    obtain ⟨ix, _, hmem⟩ := MasterIndex.mem_entries.mp hl
    exact decides_saved hc (hord.types (hinv.1.settled.finished hfin).1 c.id _ (hP c hc)
      (Index.blobType_ne_padding hmem) (.entry hl rfl))
  constructor
  · intro hfound c hc ht
    obtain ⟨l, hget⟩ := Option.isSome_iff_exists.mp (hfound c hc ht)
    obtain ⟨hmem, hdata⟩ := MasterIndex.mem_of_getData hget
    exact hdata ▸ htypes c hc l hmem
  · intro hdecided c hc ht
    obtain ⟨t, _, htr⟩ := hinv.1.known.saved c hc
    obtain ⟨l, hl, hlt⟩ := hinv.1.settled.entry hfin htr
    rcases hdecided c hc ht with ⟨l₀, hl₀, ht₀⟩ | ⟨hnone, c₀, hfind, ht₀⟩
    · obtain ⟨l', hl', ht'⟩ := hord.kept c.id l₀ hl₀
      exact MasterIndex.getData_isSome hl' (ht'.trans ht₀)
    · -- the blob came with the first call, so its entry has the type of that call
      rcases htypes c hc l hl with ⟨l₀, hl₀, _⟩ | ⟨_, c₁, hfind', ht₁⟩
      · exact absurd hl₀ (hnone l₀)
      · rw [hfind] at hfind'
        cases hfind'
        exact MasterIndex.getData_isSome hl (ht₁.symm.trans ht₀)

end SaveSystem

section Sample

open SaveSystem Pipe

/-- The data blob of the concrete run is found as data. -/
theorem sample_data_is_found : ∃ s : SaveSystem Unit 1, s.pipe.flush = .finished true ∧
    s.pipe.saved = [sampleBlob .data] ∧
    (s.pipe.index.getData sampleEnv.toIndexEnv 5).isSome = true := by
  obtain ⟨ls, s, hrun, hhonest, hflush, hsaved, hpad, -⟩ := exists_run_data
  refine ⟨s, hflush, hsaved, ?_⟩
  have hiff := saved_data_is_found_iff consistent_emptyBackend hhonest
    (fun pack hpack d hd ht c hc => by
      rw [hsaved, List.mem_singleton] at hc
      rw [hc]
      exact hpad pack hpack d hd ht) hrun hflush
  have hmem : sampleBlob .data ∈ s.pipe.saved := by
    rw [hsaved]
    exact List.mem_singleton_self _
  refine hiff.mpr ?_ _ hmem rfl
  intro c hc _
  rw [hsaved, List.mem_singleton] at hc
  rw [hc, hsaved]
  exact Or.inr ⟨fun l hl => (by cases hl), sampleBlob .data, rfl, rfl⟩

/-- **Data that was saved before as a tree is not found.** A caller saves the same bytes first as a
tree and then as data, both calls return `Ok` and the flush succeeds, but `get_data` does not know
the blob. -/
theorem data_saved_after_tree_is_not_found : ∃ ls, ∃ s : SaveSystem Unit 1,
    Run (SaveSystem.Step sampleEnv) (start sampleEnv emptyBackend emptyInstances) ls s ∧
    (∀ l ∈ ls, l.Honest sampleEnv samplePlain) ∧ s.pipe.flush = .finished true ∧
    s.pipe.saved = [sampleBlob .tree, sampleBlob .data] ∧
    s.pipe.index.getData sampleEnv.toIndexEnv 5 = none := by
  have h₀ : Run (SaveSystem.Step sampleEnv)
      (start sampleEnv emptyBackend emptyInstances : SaveSystem Unit 1) [] _ := .nil
  -- the tree is sent
  have h₁ := run_snoc h₀ (.call (.call (k := ()) .tree [5] .calculateID rfl))
  have h₂ := run_snoc h₁ (.call (.look (k := ())))
  have h₃ := run_snoc h₂ (.call (.look (k := ())))
  have h₄ := run_snoc h₃ (.call (.clone (k := ()) sampleNonce rfl rfl rfl))
  have h₅ := run_snoc h₄ (.call (.send (k := ()) rfl rfl))
  have h₆ := run_snoc h₅ (.call (.look (k := ())))
  have h₇ := run_snoc h₆ (.call (.look (k := ())))
  have h₈ := run_snoc h₇ (.call (.insert (k := ()) rfl))
  have h₉ := run_snoc h₈ (.call (.ret (k := ()) rfl))
  -- the data is taken for known because the tree is pending
  have d₁ := run_snoc h₉ (.call (.call (k := ()) .data [5] .calculateID rfl))
  have d₂ := run_snoc d₁ (.call (.look (k := ())))
  have d₃ := run_snoc d₂ (.call (.ret (k := ()) rfl))
  -- the saver packs the tree, sees the queue closed and hands the packer over
  have p₁ := run_snoc d₃ (.saver (.start rfl))
  have p₂ := run_snoc p₁ (.saver (.add rfl rfl rfl rfl))
  have p₃ := run_snoc p₂ (.flush (.take rfl))
  have p₄ := run_snoc p₃ (.saver (.close rfl rfl rfl fun _ => rfl))
  have p₅ := run_snoc p₄ (.saver (.dispatchEmpty rfl rfl))
  have p₆ := run_snoc p₅ (.saver (.take rfl (by decide) rfl))
  have p₇ := run_snoc p₆ (.saver (.send rfl))
  -- the worker uploads and registers the pack
  have w₁ := run_snoc p₇ (.worker (.recv (w := 0) rfl rfl))
  have w₂ := run_snoc w₁ (.worker (.finalize (w := 0) sampleNonce samplePadding rfl rfl rfl))
  have w₃ := run_snoc w₂ (.worker (.upload (w := 0) rfl ⟨rfl, rfl, by decide⟩))
  have w₄ := run_snoc w₃ (.worker (.register (w := 0) false rfl))
  have w₅ := run_snoc w₄ (.worker (.recycle (w := 0) rfl rfl))
  have w₆ := run_snoc w₅ (.worker (.closed (w := 0) rfl rfl rfl))
  have w₇ := run_snoc w₆ (.saver (.join rfl fun w => match w with | ⟨0, _⟩ => rfl))
  -- the flush writes the index
  have f₁ := run_snoc w₇ (.flush (.joinOk rfl rfl))
  have f₂ := run_snoc f₁ (.flush (.persist 9 rfl ⟨rfl, rfl, by decide⟩))
  have f₃ := run_snoc f₂ (.flush (.mark rfl))
  have f₄ := run_snoc f₃ (.flush (.done rfl))
  refine ⟨_, _, f₄, ?_, rfl, rfl, rfl⟩
  simp only [List.nil_append, List.cons_append, List.forall_mem_cons, PipeEvent.Honest,
    List.not_mem_nil, false_implies, implies_true, and_true, true_and]
  exact ⟨⟨rfl, by decide⟩, rfl, by decide⟩

end Sample

end Mapache
