import Mapache.Repository.PackSaverSound

/-!
# The pack pipeline loses no blob silently

`Pipe.Carried` says where a blob of a given type can be between a call and the index: in the queue,
in a packer of the saver, in its hands, in the channel to the workers, in the hands of a worker or
among the entries of the index. A step either passes a carried blob on or leaves the pipeline in a
state that the flush reports as an error (`Pipe.Lost`); `Tracked.step` is that statement.

`Pipe.Settled` describes how the pipeline closes down. When the saver has ended without an error
nothing is left on the way, so a carried blob is an entry of the index (`Settled.entry`), and when a
flush has returned without an error every entry is in a file (`Settled.indexed`).
-/

set_option autoImplicit false

namespace Mapache

open Lib

/-- The packer has a descriptor for the blob. -/
def Packer.Has (p : Packer) (id : ID) (t : BlobType) : Prop :=
  ∃ d ∈ p.descriptors, d.id = id ∧ d.blobType = t

/-- The pack has a descriptor for the blob. -/
def FinalizedPack.Has (pack : FinalizedPack) (id : ID) (t : BlobType) : Prop :=
  ∃ d ∈ pack.descriptors, d.id = id ∧ d.blobType = t

/-- The worker has the blob in hand. -/
def WorkerPhase.Has (id : ID) (t : BlobType) : WorkerPhase → Prop
  | .got p => p.Has id t
  | .uploading pack | .registering pack => pack.Has id t
  | _ => False

/-- The saver is past its loop. -/
def SaverPhase.drained : SaverPhase → Bool
  | .dispatching _ next | .sending _ next => decide (next ≠ .receive)
  | .joining | .finished true => true
  | _ => false

/-- The saver has flushed the packer for good. -/
def SaverPhase.flushed : SaverPhase → Slot → Bool
  | .dispatching _ .join, .data => true
  | .sending _ .flushTree, .data => true
  | .sending _ .join, _ => true
  | .joining, _ => true
  | .finished true, _ => true
  | _, _ => false

/-- The indices that a flush has collected and not yet recorded as written. -/
def FlushPhase.remaining : FlushPhase → Option (List Index)
  | .persisting todo => some todo
  | .marking ix _ todo => some (ix :: todo)
  | .finished true => some []
  | _ => none

theorem Packer.Blank.not_has {p : Packer} (h : p.Blank) {id : ID} {t : BlobType} : ¬ p.Has id t := by
  rintro ⟨d, hd, _⟩
  rw [h.2] at hd
  cases hd

namespace Pipe

variable {κ : Type} {n : Nat} {env : Env} {plain : ID → Bytes}
  {G : Set (ID × BlobLocator)} {F : Set ID}

/-- The blob is somewhere in the pipeline or in the index, with the given type. -/
inductive Carried (s : Pipe κ n) (id : ID) (t : BlobType) : Prop where
  | entry {l : BlobLocator} : (id, l) ∈ s.index.entries → l.blobType = t → Carried s id t
  | queue {r : Request} : r ∈ s.queue → r.id = id → r.blobType = t → Carried s id t
  | packer (x : Slot) : (s.packers x).Has id t → Carried s id t
  | hand {p : Packer} {next : SaverNext} : s.saver = .sending p next → p.Has id t → Carried s id t
  | full {p : Packer} : p ∈ s.full → p.Has id t → Carried s id t
  | worker (w : Fin n) : (s.workers w).Has id t → Carried s id t

/-- A blob may have been dropped, and the flush will fail. -/
def Lost (s : Pipe κ n) : Prop :=
  s.firstErr = true ∨ s.saver = .finished false ∨ ∃ w p, s.workers w = .failing p

/-- The blob is carried, unless the flush will fail. -/
def Tracked (s : Pipe κ n) (id : ID) (t : BlobType) : Prop := s.Lost ∨ s.Carried id t

/-- Where a step takes the blob from each place it can be in. By default it stays. -/
structure Passes (s s' : Pipe κ n) (id : ID) (t : BlobType) : Prop where
  entry : ∀ l, (id, l) ∈ s.index.entries → l.blobType = t → s'.Tracked id t := by
    exact fun l h ht => Or.inr (.entry h ht)
  queue : ∀ r ∈ s.queue, r.id = id → r.blobType = t → s'.Tracked id t := by
    exact fun r h hid ht => Or.inr (.queue h hid ht)
  packer : ∀ x, (s.packers x).Has id t → s'.Tracked id t := by
    exact fun x h => Or.inr (.packer x h)
  hand : ∀ p next, s.saver = .sending p next → p.Has id t → s'.Tracked id t := by
    exact fun p next h hp => Or.inr (.hand h hp)
  full : ∀ p ∈ s.full, p.Has id t → s'.Tracked id t := by
    exact fun p h hp => Or.inr (.full h hp)
  worker : ∀ w, (s.workers w).Has id t → s'.Tracked id t := by
    exact fun w h => Or.inr (.worker w h)

theorem Passes.tracked {s s' : Pipe κ n} {id : ID} {t : BlobType} (h : Passes s s' id t)
    (hc : s.Carried id t) : s'.Tracked id t := by
  cases hc with
  | entry hmem ht => exact h.entry _ hmem ht
  | queue hmem hid ht => exact h.queue _ hmem hid ht
  | packer x hp => exact h.packer x hp
  | hand hs hp => exact h.hand _ _ hs hp
  | full hmem hp => exact h.full _ hmem hp
  | worker w hw => exact h.worker w hw

section Passing

variable {b b' : Backend} {s s' : Pipe κ n} {id : ID} {t : BlobType}

theorem Tracked.callStep [DecidableEq κ] {l : PipeEvent κ} (hstep : CallStep env s l s')
    (hc : s.Carried id t) : s'.Tracked id t := by
  cases hstep with
  | send hk hopen =>
    refine Passes.tracked { queue := ?_ } hc
    exact fun r hr hid ht => Or.inr (.queue (List.mem_append_left _ hr) hid ht)
  | _ => exact Passes.tracked {} hc

/-- The saver passes a blob from the queue into a packer and the packer on to the workers. -/
theorem Tracked.saverStep (ht : t ≠ .padding)
    (hstep : SaverStep env s s') (hc : s.Carried id t) : s'.Tracked id t := by
  cases hstep with
  | start hs | close hs hq htx hk | dispatchEmpty hs hempty | join hs hw =>
    exact Passes.tracked { hand := fun p next hp => by rw [hs] at hp; cases hp } hc
  | startFail | addFail | disconnect => exact Or.inl (Or.inr (Or.inl rfl))
  | @skip r q hs hq hr =>
    refine Passes.tracked { queue := ?_ } hc
    intro r' hr' hid htype
    rw [hq] at hr'
    rcases List.mem_cons.mp hr' with rfl | htail
    · -- only a padding blob is skipped
      rw [htype] at hr
      cases t with
      | data | tree => cases hr
      | padding => exact absurd rfl ht
    · exact Or.inr (.queue htail hid htype)
  | @add r q x p hs hq hr hadd =>
    obtain ⟨hkeep, d, hd, hdid, hdt⟩ := Packer.mem_descriptors_addBlob hadd
    refine Passes.tracked { queue := ?_, packer := ?_, hand := ?_ } hc
    · intro r' hr' hid htype
      rw [hq] at hr'
      rcases List.mem_cons.mp hr' with rfl | htail
      · refine Or.inr (.packer x ?_)
        simp only [Function.update_self]
        exact ⟨d, hd, hdid.trans hid, hdt.trans htype⟩
      · exact Or.inr (.queue htail hid htype)
    · intro x' hx'
      refine Or.inr (.packer x' ?_)
      by_cases heq : x' = x
      · subst heq
        simp only [Function.update_self]
        obtain ⟨d', hd', hd''⟩ := hx'
        exact ⟨d', hkeep d' hd', hd''⟩
      · simp only [Function.update_of_ne heq]
        exact hx'
    · intro p' next hp
      rw [hs] at hp
      cases hp
  | @take x next p ps hs hne hpool =>
    refine Passes.tracked { packer := ?_, hand := fun p next hp => by rw [hs] at hp; cases hp } hc
    intro x' hx'
    by_cases heq : x' = x
    · subst heq
      exact Or.inr (.hand rfl hx')
    · refine Or.inr (.packer x' ?_)
      simp only [Function.update_of_ne heq]
      exact hx'
  | @send p next hs =>
    refine Passes.tracked { hand := ?_, full := ?_ } hc
    · intro p' next' hp hhas
      rw [hs] at hp
      cases hp
      exact Or.inr (.full (List.mem_append_right _ (List.mem_singleton_self _)) hhas)
    · exact fun p' hp' hhas => Or.inr (.full (List.mem_append_left _ hp') hhas)

/-- A blob in the hands of another worker stays there; one in the hands of this worker goes where
`hthis` says. -/
theorem tracked_of_worker {w w' : Fin n} {p : WorkerPhase}
    (hs' : s'.workers = Function.update s.workers w p)
    (hthis : (s.workers w).Has id t → s'.Tracked id t) (hhas : (s.workers w').Has id t) :
    s'.Tracked id t := by
  by_cases heq : w' = w
  · subst heq
    exact hthis hhas
  · refine Or.inr (.worker w' ?_)
    rw [hs', Function.update_of_ne heq]
    exact hhas

/-- A worker passes a packer through the backend into the index. -/
theorem Tracked.workerStep {l : PipeEvent κ} (h : s.Sound env plain G F b) (ht : t ≠ .padding)
    (hstep : WorkerStep env b s l b' s') (hc : s.Carried id t) : s'.Tracked id t := by
  -- a worker without a blob in hand passes nothing on
  have hnone : ∀ {w : Fin n} {p : WorkerPhase} {P : Prop}, s.workers w = p → ¬ p.Has id t →
      (s.workers w).Has id t → P := by
    intro w p P hw hp hhas
    rw [hw] at hhas
    exact absurd hhas hp
  cases hstep with
  | @recv _ w p ps hw hfull =>
    refine Passes.tracked { full := ?_, worker := ?_ } hc
    · intro p' hp' hhas
      rw [hfull] at hp'
      rcases List.mem_cons.mp hp' with rfl | htail
      · refine Or.inr (.worker w ?_)
        simp only [Function.update_self]
        exact hhas
      · exact Or.inr (.full htail hhas)
    · exact fun w' => tracked_of_worker rfl (hnone hw fun h => h)
  | closed hw hfull hclosed | giveEmptied hw | persist fid hw hfresh | recycle hw hopen
  | recycleClosed hw hend | giveBack hw =>
    exact Passes.tracked { worker := fun w' => tracked_of_worker rfl (hnone hw fun h => h) } hc
  | abandon hw herr => exact Or.inl (Or.inl herr)
  | @finalize _ w p nonce rand pack hw herr hfin =>
    refine Passes.tracked { worker := fun w' => tracked_of_worker rfl ?_ } hc
    intro hhas
    have hp := h.workers w
    rw [hw] at hp hhas
    obtain ⟨d, hd, hd'⟩ := hhas
    refine Or.inr (.worker w ?_)
    simp only [Function.update_self]
    exact ⟨d, ((hp herr).finalize hfin).2 d hd, hd'⟩
  | @finalizeEmpty _ w p nonce rand hw herr hfin =>
    refine Passes.tracked { worker := fun w' => tracked_of_worker rfl (hnone hw ?_) } hc
    have hp := (h.workerStep (.finalizeEmpty (b := b) nonce rand hw herr hfin)).workers w
    simp only [Function.update_self] at hp
    exact hp.not_has
  | @finalizeFail _ w p nonce rand hw herr hfin | @uploadFail _ _ w pack hw hfail
  | @persistFail _ _ w ix fid hw hfail =>
    exact Or.inl (Or.inr (Or.inr ⟨w, _, Function.update_self _ _ _⟩))
  | @upload _ w pack hw hfresh =>
    refine Passes.tracked { worker := fun w' => tracked_of_worker rfl ?_ } hc
    intro hhas
    rw [hw] at hhas
    refine Or.inr (.worker w ?_)
    simp only [Function.update_self]
    exact hhas
  | @register _ w pack timedOut hw =>
    refine Passes.tracked { entry := ?_, worker := fun w' => tracked_of_worker rfl ?_ } hc
    · intro l hl hlt
      obtain ⟨l', hl', ht'⟩ := MasterIndex.addPackLocked_complete env.toIndexEnv pack.id
        pack.descriptors timedOut hl
      exact Or.inr (.entry hl' (ht'.trans hlt))
    · intro hhas
      rw [hw] at hhas
      obtain ⟨d, hd, rfl, rfl⟩ := hhas
      obtain ⟨l', hl', ht'⟩ := MasterIndex.addPackLocked_self h.index.isMutable env.toIndexEnv
        pack.id
        timedOut hd ht
      exact Or.inr (.entry hl' ht')
  | mark hw =>
    refine Passes.tracked
      { entry := ?_, worker := fun w' => tracked_of_worker rfl (hnone hw fun h => h) } hc
    intro l hl hlt
    refine Or.inr (.entry (l := l) ?_ hlt)
    rw [MasterIndex.entries_setPersisted]
    exact hl
  | fail hw => exact Or.inl (Or.inl rfl)

theorem Tracked.flushStep {l : PipeEvent κ} (hstep : FlushStep b s l b' s') (hc : s.Carried id t) :
    s'.Tracked id t := by
  cases hstep with
  | joinOk hf hs =>
    refine Passes.tracked { entry := ?_ } hc
    intro l hl hlt
    refine Or.inr (.entry (l := l) ?_ hlt)
    rw [MasterIndex.entries_finalizeAll]
    exact hl
  | mark hf =>
    refine Passes.tracked { entry := ?_ } hc
    intro l hl hlt
    refine Or.inr (.entry (l := l) ?_ hlt)
    rw [MasterIndex.entries_setPersisted]
    exact hl
  | _ => exact Passes.tracked {} hc

/-- The saver takes no step after its end. -/
theorem SaverStep.not_ended (hstep : SaverStep env s s') : s.saver.ended = false := by
  cases hstep with
  | disconnect hs hw =>
    cases hsaver : s.saver with
    | finished ok => rw [hsaver] at hs; cases hs
    | _ => rfl
  | start hs | startFail hs | skip hs | add hs | addFail hs | close hs | dispatchEmpty hs | take hs
  | send hs | join hs => rw [hs]; rfl

/-- A step of a worker changes its phase, which was not `exited`; one that was about to record an
error does so. -/
theorem WorkerStep.moves {l : PipeEvent κ} (hstep : WorkerStep env b s l b' s') :
    ∃ w p, s'.workers = Function.update s.workers w p ∧ s.workers w ≠ .exited ∧
      ∀ q, s.workers w = .failing q → s'.firstErr = true := by
  cases hstep with
  | fail hw => exact ⟨_, _, rfl, by simp [hw], fun q _ => rfl⟩
  | recv hw | closed hw | abandon hw | finalize _ _ hw | finalizeEmpty _ _ hw | finalizeFail _ _ hw
  | giveEmptied hw | upload hw | uploadFail hw | register _ hw | persist _ hw | persistFail hw
  | mark hw | recycle hw | recycleClosed hw | giveBack hw =>
    refine ⟨_, _, rfl, by simp [hw], ?_⟩
    intro q hq
    rw [hw] at hq
    cases hq

/-- A worker never takes an error back and never touches the saver or the queue. -/
theorem WorkerStep.frame {l : PipeEvent κ} (hstep : WorkerStep env b s l b' s') :
    s'.saver = s.saver ∧ s'.tx = s.tx ∧ s'.queue = s.queue ∧ s'.callers = s.callers ∧
      s'.packers = s.packers ∧ s'.flush = s.flush ∧ (s.firstErr = true → s'.firstErr = true) := by
  cases hstep <;> exact ⟨rfl, rfl, rfl, rfl, rfl, rfl, fun h => by first | exact h | rfl⟩

theorem SaverStep.frame (hstep : SaverStep env s s') :
    s'.callers = s.callers ∧ s'.flush = s.flush := by
  cases hstep <;> exact ⟨rfl, rfl⟩

theorem CallStep.flush_eq [DecidableEq κ] {l : PipeEvent κ} (hstep : CallStep env s l s') :
    s'.flush = s.flush := by
  cases hstep <;> rfl

theorem FlushStep.callers_eq {l : PipeEvent κ} (hstep : FlushStep b s l b' s') :
    s'.callers = s.callers := by
  cases hstep <;> rfl

theorem Lost.saverStep (hstep : SaverStep env s s') (h : s.Lost) : s'.Lost := by
  have hopen := hstep.not_ended
  rcases h with herr | hfin | hw
  · cases hstep <;> exact Or.inl herr
  · rw [hfin] at hopen
    cases hopen
  · cases hstep <;> exact Or.inr (Or.inr hw)

theorem Lost.workerStep {l : PipeEvent κ} (hstep : WorkerStep env b s l b' s') (h : s.Lost) :
    s'.Lost := by
  obtain ⟨hsaver, -, -, -, -, -, herr'⟩ := hstep.frame
  rcases h with herr | hfin | ⟨w, p, hw⟩
  · exact Or.inl (herr' herr)
  · exact Or.inr (Or.inl (hsaver.trans hfin))
  · obtain ⟨w', p', hs', -, hfail⟩ := hstep.moves
    by_cases heq : w = w'
    · subst heq
      exact Or.inl (hfail p hw)
    · refine Or.inr (Or.inr ⟨w, p, ?_⟩)
      rw [hs', Function.update_of_ne heq]
      exact hw

/-- Nothing takes an error back. -/
theorem Lost.step [DecidableEq κ] {l : PipeEvent κ} (hstep : Step env b s l b' s') (h : s.Lost) :
    s'.Lost := by
  cases hstep with
  | call hcall => cases hcall <;> exact h
  | saver hsaver => exact h.saverStep hsaver
  | worker hworker => exact h.workerStep hworker
  | flush hflush => cases hflush <;> exact h

/-- **A step passes a blob on, or the flush will fail.** -/
theorem Tracked.step [DecidableEq κ] {l : PipeEvent κ} (h : s.Sound env plain G F b)
    (ht : t ≠ .padding) (hstep : Step env b s l b' s') (htr : s.Tracked id t) : s'.Tracked id t := by
  rcases htr with hlost | hc
  · exact Or.inl (hlost.step hstep)
  · cases hstep with
    | call hcall => exact Tracked.callStep hcall hc
    | saver hsaver => exact Tracked.saverStep ht hsaver hc
    | worker hworker => exact Tracked.workerStep h ht hworker hc
    | flush hflush => exact Tracked.flushStep hflush hc

end Passing

/-! ## Closing down -/

/-- How the pipeline closes down. Once the saver is past its loop the queue stays closed, the
packers it has flushed stay empty, and a worker leaves without an error only when the channel to it
is closed and empty. What a flush still has to write covers every index that is in no file. -/
structure Settled (s : Pipe κ n) : Prop where
  drained : s.saver.drained = true →
    s.tx = false ∧ s.queue = [] ∧ ∀ k, (s.callers k).holdsTx = false
  slot : ∀ t next, s.saver = .dispatching t next →
    (next = .flushTree → t = .data) ∧ (next = .join → t = .tree)
  flushed : s.firstErr = false → ∀ t, s.saver.flushed t = true → (s.packers t).Blank
  exited : ∀ w, s.workers w = .exited → s.Lost ∨ (s.saver.closed = true ∧ s.full = [])
  finished : s.saver = .finished true → s.firstErr = false ∧ ∀ w, s.workers w = .exited
  idle : n = 0 → s.pool = [] ∧ s.full = [] ∧ ∀ p next, s.saver ≠ .sending p next
  flush : ∀ todo, s.flush.remaining = some todo → s.saver = .finished true ∧
    ∀ ix ∈ s.index.indices, ix.isPersisted = true ∨ ix.iterIds = [] ∨
      ∃ ix' ∈ todo, ix'.instanceId = ix.instanceId

section Closing

variable {b b' : Backend} {s s' : Pipe κ n}

theorem Settled.init (index : MasterIndex) : (Pipe.init index : Pipe κ n).Settled where
  drained := fun h => (by cases h)
  slot := fun t next h => by cases h
  flushed := fun _ t h => by cases t <;> cases h
  exited := fun w h => by cases h
  finished := fun h => (by cases h)
  idle := by
    rintro rfl
    exact ⟨rfl, rfl, fun p next h => by cases h⟩
  flush := fun todo h => by cases h

theorem look_holdsTx {mi : MasterIndex} {p : CallPhase} (h : p.holdsTx = false) :
    (p.look env.toIndexEnv mi).holdsTx = false := by
  cases p with
  | idle | cloning c | returned c => exact h
  | checking c | lookup c =>
    simp only [CallPhase.look]
    split <;> rfl
  | sending c e | noting c | notingIndex c | inserting c => cases h

/-- A caller that holds no sender cannot get one once the queue is closed. -/
theorem Settled.callStep [DecidableEq κ] {l : PipeEvent κ} (h : s.Settled)
    (hstep : CallStep env s l s') : s'.Settled := by
  -- a step of a caller whose new phase holds no sender
  have hmove : ∀ {k : κ} {p : CallPhase}, (s.saver.drained = true → p.holdsTx = false) →
      s.saver.drained = true →
        s.tx = false ∧ s.queue = [] ∧ ∀ k', (Function.update s.callers k p k').holdsTx = false := by
    intro k p hp hd
    obtain ⟨htx, hq, hk⟩ := h.drained hd
    exact ⟨htx, hq, forall_update (P := fun p : CallPhase => p.holdsTx = false) hk (hp hd)⟩
  cases hstep with
  | call | reject | sendFail | insert | ret => exact { h with drained := hmove fun _ => rfl }
  | @look k => exact { h with drained := hmove fun hd => look_holdsTx ((h.drained hd).2.2 k) }
  | clone nonce hk henc htx =>
    refine { h with drained := hmove fun hd => ?_ }
    rw [(h.drained hd).1] at htx
    cases htx
  | @send k c encoded hk hopen =>
    refine { h with drained := fun hd => ?_ }
    have hno := (h.drained hd).2.2 k
    rw [hk] at hno
    cases hno

/-- The packers that a dispatch has flushed. -/
theorem Settled.flushed_saverStep (h : s.Settled) (hs : s.Sound env plain G F b)
    (hstep : SaverStep env s s') (herr : s'.firstErr = false) (t : Slot)
    (ht : s'.saver.flushed t = true) : (s'.packers t).Blank := by
  cases hstep with
  | start hsv | startFail hsv | close hsv | disconnect hsv => cases t <;> cases ht
  | addFail hsv => cases t <;> cases ht
  | skip hsv => exact h.flushed herr t ht
  | add hsv =>
    dsimp only at ht
    split at ht <;> cases t <;> cases ht
  | @dispatchEmpty x next hsv hempty =>
    obtain ⟨hdata, htree⟩ := h.slot x next hsv
    have hx : (s.packers x).Blank := (hs.packers herr x).blank hempty
    cases next with
    | receive => cases t <;> cases ht
    | flushTree =>
      -- the data packer was just found empty
      cases t with
      | data => exact hdata rfl ▸ hx
      | tree => cases ht
    | join =>
      cases t with
      | data => exact h.flushed herr .data (by rw [hsv]; rfl)
      | tree => exact htree rfl ▸ hx
  | @take x next p ps hsv hne hpool =>
    obtain ⟨hdata, htree⟩ := h.slot x next hsv
    have hp : p.Blank := hs.pool herr p (by rw [hpool]; exact List.mem_cons_self)
    cases next with
    | receive => cases t <;> cases ht
    | flushTree =>
      rw [hdata rfl]
      cases t with
      | data => simpa using hp
      | tree => cases ht
    | join =>
      rw [htree rfl]
      cases t with
      | data => simpa using h.flushed herr .data (by rw [hsv]; rfl)
      | tree => simpa using hp
  | @send p next hsv =>
    cases next with
    | receive => cases t <;> cases ht
    | flushTree =>
      cases t with
      | data => exact h.flushed herr .data (by rw [hsv]; rfl)
      | tree => cases ht
    | join => exact h.flushed herr t (by rw [hsv]; cases t <;> rfl)
  | join hsv hw => exact h.flushed herr t (by rw [hsv]; cases t <;> rfl)

/-- The saver leaves its loop only when the queue is closed. -/
theorem Settled.drained_saverStep (h : s.Settled) (hstep : SaverStep env s s')
    (hd : s'.saver.drained = true) :
    s'.tx = false ∧ s'.queue = [] ∧ ∀ k, (s'.callers k).holdsTx = false := by
  cases hstep with
  | start hsv | startFail hsv | disconnect hsv => cases hd
  | addFail hsv => cases hd
  | skip hsv hq =>
    rw [hsv] at hd
    cases hd
  | add hsv =>
    dsimp only at hd
    split at hd <;> cases hd
  | close hsv hq htx hk => exact ⟨htx, hq, hk⟩
  | @dispatchEmpty x next hsv hempty =>
    cases next with
    | receive => cases hd
    | flushTree | join => exact h.drained (by rw [hsv]; rfl)
  | take hsv => exact h.drained (by rw [hsv]; exact hd)
  | @send p next hsv =>
    cases next with
    | receive => cases hd
    | flushTree | join => exact h.drained (by rw [hsv]; rfl)
  | join hsv hw => exact h.drained (by rw [hsv]; rfl)

theorem Settled.saverStep (h : s.Settled) (hs : s.Sound env plain G F b)
    (hstep : SaverStep env s s') : s'.Settled where
  drained := h.drained_saverStep hstep
  slot := by
    intro t next hsv'
    cases hstep with
    | start hsv | startFail hsv | addFail hsv | disconnect hsv | join hsv => cases hsv'
    | skip hsv => exact h.slot t next hsv'
    | add hsv =>
      dsimp only at hsv'
      split at hsv' <;> cases hsv'
      exact ⟨fun h => (by cases h), fun h => (by cases h)⟩
    | close hsv =>
      cases hsv'
      exact ⟨fun _ => rfl, fun h => (by cases h)⟩
    | @dispatchEmpty x next' hsv hempty =>
      cases next' <;> cases hsv'
      exact ⟨fun h => (by cases h), fun _ => rfl⟩
    | take hsv => cases hsv'
    | @send p next' hsv =>
      cases next' <;> cases hsv'
      exact ⟨fun h => (by cases h), fun _ => rfl⟩
  flushed := h.flushed_saverStep hs hstep
  exited := by
    intro w hw
    have hw' : s.workers w = .exited := by cases hstep <;> exact hw
    rcases h.exited w hw' with hlost | ⟨hclosed, hfull⟩
    · exact Or.inl (hlost.saverStep hstep)
    · -- a closed saver can only join the workers
      cases hstep with
      | join hsv hall => exact Or.inr ⟨rfl, hfull⟩
      | disconnect hdisp hall => exact Or.inl (Or.inr (Or.inl rfl))
      | start hsv | startFail hsv | skip hsv | add hsv | addFail hsv | close hsv | dispatchEmpty hsv
      | take hsv | send hsv =>
        rw [hsv] at hclosed
        cases hclosed
  finished := by
    intro hfin
    cases hstep with
    | join hsv hall =>
      refine ⟨?_, hall⟩
      have hnot : (!s.firstErr) = true := by simpa using hfin
      simpa using hnot
    | start hsv | startFail hsv | addFail hsv | close hsv | take hsv | disconnect hsv => cases hfin
    | skip hsv =>
      rw [hsv] at hfin
      cases hfin
    | add hsv =>
      dsimp only at hfin
      split at hfin <;> cases hfin
    | @dispatchEmpty x next hsv => cases next <;> cases hfin
    | @send p next hsv => cases next <;> cases hfin
  idle := by
    intro hn
    obtain ⟨hpool, hfull, hsend⟩ := h.idle hn
    cases hstep with
    | start hsv | startFail hsv | addFail hsv | close hsv | disconnect hsv | join hsv =>
      exact ⟨hpool, hfull, fun p next hp => by cases hp⟩
    | skip hsv => exact ⟨hpool, hfull, hsend⟩
    | add hsv =>
      refine ⟨hpool, hfull, fun p next hp => ?_⟩
      dsimp only at hp
      split at hp <;> cases hp
    | @dispatchEmpty x next' hsv =>
      exact ⟨hpool, hfull, fun p next hp => by cases next' <;> cases hp⟩
    | take hsv hne hp =>
      rw [hpool] at hp
      cases hp
    | send hsv => exact absurd hsv (hsend _ _)
  flush := by
    intro todo htodo
    have htodo' : s.flush.remaining = some todo := by cases hstep <;> exact htodo
    have hopen := hstep.not_ended
    rw [(h.flush todo htodo').1] at hopen
    cases hopen

/-- A worker leaves without an error only when the channel to it is closed and empty. -/
theorem Settled.exited_workerStep {l : PipeEvent κ} (h : s.Settled) (hs : s.Sound env plain G F b)
    (hstep : WorkerStep env b s l b' s') (w' : Fin n) (hw' : s'.workers w' = .exited) :
    s'.Lost ∨ (s'.saver.closed = true ∧ s'.full = []) := by
  -- a worker that had left before
  by_cases hold : s.workers w' = .exited
  · rcases h.exited w' hold with hlost | ⟨hclosed, hfull⟩
    · exact Or.inl (hlost.workerStep hstep)
    · cases hstep with
      | recv hw hf =>
        rw [hfull] at hf
        cases hf
      | _ => exact Or.inr ⟨hclosed, hfull⟩
  -- the worker that leaves in this step
  have hthis : ∀ {w : Fin n} {p : WorkerPhase}, p ≠ .exited →
      Function.update s.workers w p w' = .exited → False := by
    intro w p hp heq
    by_cases hww : w' = w
    · subst hww
      rw [Function.update_self] at heq
      exact hp heq
    · rw [Function.update_of_ne hww] at heq
      exact hold heq
  cases hstep with
  | closed hw hfull hclosed => exact Or.inr ⟨hclosed, hfull⟩
  | abandon hw herr => exact Or.inl (Or.inl herr)
  | @recycleClosed _ w p hw hend =>
    refine Or.inl (Or.inr (Or.inl ?_))
    cases hsv : s.saver with
    | finished ok =>
      cases ok with
      | false => rfl
      | true =>
        have hex := (h.finished hsv).2 w
        rw [hw] at hex
        cases hex
    | _ => rw [hsv] at hend; cases hend
  | @giveBack _ w p hw =>
    have hp := hs.workers w
    rw [hw] at hp
    exact Or.inl (Or.inl hp)
  | @register _ w pack timedOut hw =>
    refine (hthis ?_ hw').elim
    split <;> exact fun h => (by cases h)
  | recv | finalize | finalizeEmpty | finalizeFail | giveEmptied | upload | uploadFail | persist
  | persistFail | mark | recycle | fail => exact (hthis (fun h => (by cases h)) hw').elim

/-- A worker that moves shows that the saver has not ended without an error. -/
theorem Settled.workerStep {l : PipeEvent κ} (h : s.Settled) (hs : s.Sound env plain G F b)
    (hstep : WorkerStep env b s l b' s') : s'.Settled := by
  obtain ⟨hsaver, htx, hqueue, hcallers, hpackers, hflush, herr⟩ := hstep.frame
  have hactive : s.saver ≠ .finished true := by
    intro hfin
    obtain ⟨w, _, -, hne, -⟩ := hstep.moves
    exact hne ((h.finished hfin).2 w)
  have herr' : s'.firstErr = false → s.firstErr = false := by
    intro hf
    by_contra hne
    rw [Bool.not_eq_false] at hne
    rw [herr hne] at hf
    cases hf
  exact
    { drained := by
        rw [hsaver, htx, hqueue, hcallers]
        exact h.drained
      slot := by
        rw [hsaver]
        exact h.slot
      flushed := by
        rw [hsaver, hpackers]
        exact fun hf => h.flushed (herr' hf)
      exited := h.exited_workerStep hs hstep
      finished := by
        rw [hsaver]
        exact fun hfin => absurd hfin hactive
      idle := by
        rintro rfl
        obtain ⟨w, _⟩ := hstep.moves
        exact w.elim0
      flush := by
        rw [hflush]
        intro todo htodo
        exact absurd (h.flush todo htodo).1 hactive }

/-- A flush collects every index that is in no file, and forgets one only when its file is
recorded. -/
theorem Settled.flushStep {l : PipeEvent κ} (h : s.Settled) (hs : s.Sound env plain G F b)
    (hstep : FlushStep b s l b' s') : s'.Settled := by
  cases hstep with
  | take hf =>
    refine { h with drained := fun hd => ⟨rfl, (h.drained hd).2⟩, flush := fun todo ht => ?_ }
    cases ht
  | joinFail | persistFail => exact { h with flush := fun todo ht => (by cases ht) }
  | joinOk hf hsv =>
    refine { h with flush := fun todo ht => ⟨hsv, ?_⟩ }
    cases ht
    intro ix hix
    obtain ⟨ix₀, hix₀, rfl⟩ := MasterIndex.mem_indices_finalizeAll hix
    by_cases hneeds : MasterIndex.needsPersist ix₀ = true
    · rw [if_pos hneeds]
      refine Or.inr (Or.inr ⟨ix₀.finalize, ?_, rfl⟩)
      exact List.mem_map_of_mem (List.mem_filter.mpr ⟨hix₀, hneeds⟩)
    · rw [if_neg hneeds]
      simp only [MasterIndex.needsPersist, Bool.and_eq_true, Bool.not_eq_true', not_and,
        Bool.not_eq_false] at hneeds
      cases hp : ix₀.isPersisted with
      | true => exact Or.inl rfl
      | false => exact Or.inr (Or.inl (Index.iterIds_eq_nil_of_isEmpty (hneeds hp)))
  | persist fid hf hfresh | done hf =>
    refine { h with flush := fun todo ht => h.flush todo ?_ }
    rw [hf]
    exact ht
  | @mark _ ix rest fid hf =>
    obtain ⟨hsv, hcover⟩ := h.flush (ix :: rest) (by rw [hf]; rfl)
    refine { h with flush := fun todo ht => ⟨hsv, ?_⟩ }
    cases ht
    intro ix' hix'
    by_cases hinst : ix'.instanceId = ix.instanceId
    · exact Or.inl (hs.index.isPersisted_setPersisted hix' hinst)
    · rcases MasterIndex.mem_indices_setPersisted hix' with hold | ⟨ix₀, hix₀, _, rfl⟩
      · rcases hcover ix' hold with hp | hnil | ⟨ix'', hmem, heq⟩
        · exact Or.inl hp
        · exact Or.inr (Or.inl hnil)
        · rcases List.mem_cons.mp hmem with rfl | htail
          · exact absurd heq.symm hinst
          · exact Or.inr (Or.inr ⟨ix'', htail, heq⟩)
      · exact Or.inl rfl

/-- **Every step keeps the closing-down invariant.** -/
theorem Settled.step [DecidableEq κ] {l : PipeEvent κ} (h : s.Settled) (hs : s.Sound env plain G F b)
    (hstep : Step env b s l b' s') : s'.Settled := by
  cases hstep with
  | call hcall => exact h.callStep hcall
  | saver hsaver => exact h.saverStep hs hsaver
  | worker hworker => exact h.workerStep hs hworker
  | flush hflush => exact h.flushStep hs hflush

/-- **When the saver has ended without an error, a carried blob is in the index.** -/
theorem Settled.entry (h : s.Settled) (hfin : s.saver = .finished true) {id : ID} {t : BlobType}
    (htr : s.Tracked id t) : ∃ l, (id, l) ∈ s.index.entries ∧ l.blobType = t := by
  obtain ⟨herr, hexited⟩ := h.finished hfin
  have hnotLost : ¬ s.Lost := by
    rintro (hl | hl | ⟨w, p, hw⟩)
    · rw [herr] at hl
      cases hl
    · rw [hfin] at hl
      cases hl
    · rw [hexited w] at hw
      cases hw
  have hfull : s.full = [] := by
    rcases Nat.eq_zero_or_pos n with hn | hn
    · exact (h.idle hn).2.1
    · rcases h.exited ⟨0, hn⟩ (hexited _) with hlost | ⟨_, hfull⟩
      · exact absurd hlost hnotLost
      · exact hfull
  rcases htr with hlost | hc
  · exact absurd hlost hnotLost
  cases hc with
  | @entry l hmem ht => exact ⟨l, hmem, ht⟩
  | queue hmem hid ht =>
    rw [(h.drained (by rw [hfin]; rfl)).2.1] at hmem
    cases hmem
  | packer x hp =>
    exact absurd hp (h.flushed herr x (by rw [hfin]; cases x <;> rfl)).not_has
  | hand hs hp =>
    rw [hfin] at hs
    cases hs
  | full hmem hp =>
    rw [hfull] at hmem
    cases hmem
  | worker w hw =>
    rw [hexited w] at hw
    exact hw.elim

/-- **When a flush has returned without an error, every entry of the index is in a file.** -/
theorem Settled.indexed (h : s.Settled) (hs : s.Sound env plain G F b)
    (hflush : s.flush = .finished true) {e : ID × BlobLocator} (he : e ∈ s.index.entries) :
    b.Indexed F e.1 := by
  obtain ⟨-, hcover⟩ := h.flush [] (by rw [hflush]; rfl)
  obtain ⟨ix, hix, hmem⟩ := MasterIndex.mem_entries.mp he
  rcases hcover ix hix with hp | hnil | ⟨ix', hnone, _⟩
  · exact hs.persisted ix hix hp e hmem
  · rw [hnil] at hmem
    cases hmem
  · cases hnone

end Closing

end Pipe

end Mapache
