import Mapache.Lib.ActOnce
import Mapache.Repository.SaveBlob

/-!
# Deduplication

`encode_and_save_blob` asks whether the blob is known, sends it, and only then marks it as pending:
three accesses to shared state with nothing that holds them together. Two calls for one blob may
both find it unknown and both send it, and a call that is about to insert its mark may do so after a
worker has registered the pack and taken the mark away. `Undisturbed` is the condition that a step
runs into neither, and in every run of undisturbed steps a blob is sent at most once and a
successful flush leaves no blob pending (`sent_once_and_none_pending`). The first part is an
instance of `Lib.ActOnce`, one for every blob ID.
-/

set_option autoImplicit false

namespace Mapache

open Lib

/-- Where a call stands with the blob of an ID: from the lookup that did not find it to the request
it has `entered`, and until it is known that the blob is marked it has `acted`. -/
def CallPhase.stage (id : ID) : CallPhase → ActOnce.Stage
  | .cloning c | .sending c _ => if c.id = id then .entered else .out
  | .noting c | .notingIndex c | .inserting c => if c.id = id then .acted else .out
  | _ => .out

/-- The IDs that a step of a call sends to the packer, from the phases of the caller before and
after it. -/
def CallPhase.sends : CallPhase → CallPhase → List ID
  | .sending c _, .noting _ => [c.id]
  | _, _ => []

/-- Some index has an entry for the blob. -/
def MasterIndex.HasEntry (mi : MasterIndex) (id : ID) : Prop := ∃ l, (id, l) ∈ mi.entries

/-- `contains` answers yes: the blob is pending or in an index. -/
def MasterIndex.Marked (mi : MasterIndex) (id : ID) : Prop := id ∈ mi.pendingBlobs ∨ mi.HasEntry id

namespace Pipe

variable {κ : Type} {n : Nat} {env : Env} {plain : ID → Bytes}
  {G : Set (ID × BlobLocator)} {F : Set ID}

/-- The IDs that a step sends to the packer. -/
def sends (s s' : Pipe κ n) : PipeEvent κ → List ID
  | .caller k => (s.callers k).sends (s'.callers k)
  | _ => []

/-- The step runs into no race. A call that finds its blob in no index does so when the blob is not
pending and no other call is between this lookup and its mark; and a worker registers a pack when no
call is about to mark a blob of it, and the random IDs of its padding are those of no pending blob.
-/
def Undisturbed (s : Pipe κ n) : PipeEvent κ → Prop
  | .caller k => ∀ c, s.callers k = .lookup c → ¬ s.index.HasEntry c.id →
      c.id ∉ s.index.pendingBlobs ∧ ∀ k', (s.callers k').stage c.id = .out
  | .register pack => ∀ d ∈ pack.descriptors,
      (d.blobType = .padding → d.id ∉ s.index.pendingBlobs) ∧
        (d.blobType ≠ .padding → ∀ k c, s.callers k = .inserting c → c.id ≠ d.id)
  | _ => True

/-- What the pipeline does for one blob, as agents that are to act at most once. -/
def actOnce (s : Pipe κ n) (sent : List ID) (id : ID) : ActOnce.State κ where
  stage := fun k => (s.callers k).stage id
  acts := sent.count id
  marked := s.index.Marked id

/-! ## What a step does to the marks -/

/-- A step that touches neither a caller nor a mark. -/
structure Neutral (s : Pipe κ n) (l : PipeEvent κ) (s' : Pipe κ n) : Prop where
  callers : s'.callers = s.callers
  entries : s'.index.entries = s.index.entries
  pending : s'.index.pendingBlobs = s.index.pendingBlobs
  sends : s.sends s' l = []

section Steps

variable {b b' : Backend} {s s' : Pipe κ n} {l : PipeEvent κ} {id : ID}

/-- A step moves a caller, registers a pack or is neutral. -/
theorem Step.cases [DecidableEq κ] (h : Step env b s l b' s') :
    CallStep env s l s' ∨ Neutral s l s' ∨
      ∃ pack timedOut, l = .register pack ∧ s'.callers = s.callers ∧
        s'.index = (s.index.addPackLocked env.toIndexEnv pack.id pack.descriptors timedOut).1 := by
  cases h with
  | call hcall => exact Or.inl hcall
  | saver hsaver =>
    refine Or.inr (Or.inl ?_)
    cases hsaver <;> exact ⟨rfl, rfl, rfl, rfl⟩
  | worker hworker =>
    cases hworker with
    | register timedOut hw => exact Or.inr (Or.inr ⟨_, timedOut, rfl, rfl, rfl⟩)
    | mark hw => exact Or.inr (Or.inl ⟨rfl, MasterIndex.entries_setPersisted _ _ _, rfl, rfl⟩)
    | _ => exact Or.inr (Or.inl ⟨rfl, rfl, rfl, rfl⟩)
  | flush hflush =>
    refine Or.inr (Or.inl ?_)
    cases hflush with
    | joinOk hf hs => exact ⟨rfl, MasterIndex.entries_finalizeAll _, rfl, rfl⟩
    | mark hf => exact ⟨rfl, MasterIndex.entries_setPersisted _ _ _, rfl, rfl⟩
    | _ => exact ⟨rfl, rfl, rfl, rfl⟩

/-- A step of a caller leaves the entries alone and takes no mark away. -/
theorem CallStep.marks [DecidableEq κ] (h : CallStep env s l s') :
    s'.index.entries = s.index.entries ∧ s.index.pendingBlobs ⊆ s'.index.pendingBlobs := by
  cases h with
  | insert hk => exact ⟨rfl, Finset.subset_insert _ _⟩
  | _ => exact ⟨rfl, subset_rfl⟩

/-- A mark that `add_pack` takes away makes place for an entry. -/
theorem marked_addPackLocked (hwf : s.index.WF) {pack : FinalizedPack} {timedOut : Bool}
    (hok : s.Undisturbed (.register pack)) (hid : s.index.Marked id) :
    (s.index.addPackLocked env.toIndexEnv pack.id pack.descriptors timedOut).1.Marked id := by
  rcases hid with hpending | ⟨l, hl⟩
  · by_cases hmem : id ∈ (pack.descriptors.map PackedBlobDescriptor.id).toFinset
    · obtain ⟨d, hd, rfl⟩ := List.mem_map.mp (List.mem_toFinset.mp hmem)
      have hne : d.blobType ≠ .padding := fun ht => (hok d hd).1 ht hpending
      obtain ⟨l, hl, _⟩ := MasterIndex.addPackLocked_self hwf.isMutable env.toIndexEnv pack.id
        timedOut hd hne
      exact Or.inr ⟨l, hl⟩
    · exact Or.inl (Finset.mem_sdiff.mpr ⟨hpending, hmem⟩)
  · obtain ⟨l', hl', _⟩ := MasterIndex.addPackLocked_complete env.toIndexEnv pack.id
      pack.descriptors timedOut hl
    exact Or.inr ⟨l', hl'⟩

end Steps

/-! ## Sending at most once -/

/-- What a step can do to the stages of its caller, between two states of the index. -/
inductive Moves (mi mi' : MasterIndex) : CallPhase → CallPhase → Prop where
  | stay {p q : CallPhase} : (∀ id, q.stage id = p.stage id) → p.sends q = [] → Moves mi mi' p q
  | enter {c : Blob} : ¬ mi.HasEntry c.id → Moves mi mi' (.lookup c) (.cloning c)
  | giveUp {p : CallPhase} {c : Blob} : (∀ id, p.stage id = if c.id = id then .entered else .out) →
      Moves mi mi' p .idle
  | act {c : Blob} {encoded : Bytes} : Moves mi mi' (.sending c encoded) (.noting c)
  | leave {p : CallPhase} {c : Blob} : (∀ id, p.stage id = if c.id = id then .acted else .out) →
      mi'.Marked c.id → Moves mi mi' p (.returned c)

/-- The lookups of a call. One that finds nothing enters, and one that finds its blob leaves. -/
theorem moves_look {mi : MasterIndex} (hwf : mi.WF) (p : CallPhase) :
    Moves mi mi p (p.look env.toIndexEnv mi) := by
  cases p with
  | checking c =>
    simp only [CallPhase.look]
    split
    · exact .stay (fun _ => rfl) rfl
    · exact .stay (fun _ => rfl) rfl
  | lookup c =>
    simp only [CallPhase.look]
    split
    · exact .stay (fun _ => rfl) rfl
    · rename_i hnone
      exact .enter fun hsome => hnone (hwf.indexContains_iff.mpr hsome)
  | noting c =>
    simp only [CallPhase.look]
    split
    · rename_i hpending
      exact .leave (fun _ => rfl) (Or.inl hpending)
    · exact .stay (fun _ => rfl) rfl
  | notingIndex c =>
    simp only [CallPhase.look]
    split
    · rename_i hsome
      exact .leave (fun _ => rfl) (Or.inr (MasterIndex.anyIndexContains_iff.mp hsome))
    · exact .stay (fun _ => rfl) rfl
  | idle | cloning c | sending c e | inserting c | returned c => exact .stay (fun _ => rfl) rfl

section Call

variable [DecidableEq κ] {s s' : Pipe κ n} {sent : List ID} {k : κ} {p : CallPhase} {id : ID}

/-- A step of a caller moves this caller, and it sends what the move sends. -/
theorem CallStep.moves {l : PipeEvent κ} (hstep : CallStep env s l s') (hwf : s.index.WF) :
    ∃ k p, s'.callers = Function.update s.callers k p ∧ Moves s.index s'.index (s.callers k) p ∧
      s.sends s' l = (s.callers k).sends p ∧ (∀ c, s.callers k = .lookup c → l = .caller k) := by
  -- what a step of a caller sends is read off its phase
  have hsends : ∀ {k p}, s'.callers = Function.update s.callers k p →
      s.sends s' (.caller k) = (s.callers k).sends p := by
    intro k p hupd
    simp only [sends, hupd, Function.update_self]
  cases hstep with
  | @call k t data saveId hk =>
    refine ⟨k, _, rfl, .stay (fun id => by rw [hk]; rfl) (by rw [hk]; rfl), by rw [hk]; rfl, ?_⟩
    intro c hc
    rw [hk] at hc
    cases hc
  | @look k => exact ⟨k, _, rfl, moves_look hwf _, hsends rfl, fun _ _ => rfl⟩
  | @reject k c hk hwhy | @sendFail k c encoded hk hend =>
    exact ⟨k, _, rfl, .giveUp (c := c) (fun id => by rw [hk]; rfl), hsends rfl, fun _ _ => rfl⟩
  | @clone k c nonce encoded hk henc htx | @ret k c hk =>
    exact ⟨k, _, rfl, .stay (fun id => by rw [hk]; rfl) (by rw [hk]; rfl), hsends rfl,
      fun _ _ => rfl⟩
  | @send k c encoded hk hopen =>
    exact ⟨k, _, rfl, by rw [hk]; exact .act, hsends rfl, fun _ _ => rfl⟩
  | @insert k c hk =>
    exact ⟨k, _, rfl, .leave (fun id => by rw [hk]; rfl) (Or.inl (Finset.mem_insert_self _ _)),
      hsends rfl, fun _ _ => rfl⟩

theorem actOnce_update (sent sent' : List ID) (id : ID)
    (h : s'.callers = Function.update s.callers k p) :
    (s'.actOnce sent' id).stage = Function.update (s.actOnce sent id).stage k (p.stage id) := by
  funext k'
  by_cases heq : k' = k
  · rw [heq, Function.update_self]
    simp only [actOnce, h, Function.update_self]
  · rw [Function.update_of_ne heq]
    simp only [actOnce, h, Function.update_of_ne heq]

/-- **A step of a caller is a step of an agent**, for every blob ID. -/
theorem CallStep.actOnce {l : PipeEvent κ} (hstep : CallStep env s l s') (hwf : s.index.WF)
    (hok : s.Undisturbed l) :
    ActOnce.Step (s.actOnce sent id) (s'.actOnce (sent ++ s.sends s' l) id) := by
  have hmark : s.index.Marked id → s'.index.Marked id := by
    obtain ⟨hentries, hpending⟩ := hstep.marks
    rintro (hp | ⟨loc, hl⟩)
    · exact Or.inl (hpending hp)
    · exact Or.inr ⟨loc, hentries ▸ hl⟩
  obtain ⟨k, p, hupd, hmoves, hsends, hlabel⟩ := hstep.moves hwf
  have hstage := actOnce_update sent (sent ++ s.sends s' l) id hupd
  have hbefore : (s.actOnce sent id).stage k = (s.callers k).stage id := rfl
  have hacts : (s'.actOnce (sent ++ s.sends s' l) id).acts =
      (s.actOnce sent id).acts + ((s.callers k).sends p).count id := by
    simp only [Pipe.actOnce, List.count_append, hsends]
  -- a caller that keeps its stage for this ID
  have hstay : p.stage id = (s.callers k).stage id → ((s.callers k).sends p).count id = 0 →
      ActOnce.Step (s.actOnce sent id) (s'.actOnce (sent ++ s.sends s' l) id) := by
    intro hp hcount
    refine .stay ?_ (by rw [hacts, hcount, Nat.add_zero]) hmark
    rw [hstage, hp, ← hbefore, Function.update_eq_self]
  generalize hphase : s.callers k = q at hmoves hlabel hstay hacts hbefore
  cases hmoves with
  | stay hp hnil => exact hstay (hp id) (by rw [hnil]; rfl)
  | @enter c hnone =>
    by_cases hid : c.id = id
    · subst hid
      obtain rfl := hlabel c rfl
      obtain ⟨hpending, hout⟩ := hok c hphase hnone
      refine .enter k hout ?_ ?_ hacts
      · rintro (hp | hentry)
        · exact hpending hp
        · exact hnone hentry
      · rw [hstage, CallPhase.stage, if_pos rfl]
    · exact hstay (by simp only [CallPhase.stage, if_neg hid]) rfl
  | @giveUp q c hq =>
    have hnil : q.sends .idle = [] := by cases q <;> rfl
    by_cases hid : c.id = id
    · refine .giveUp k ?_ hstage ?_
      · rw [hbefore, hq, if_pos hid]
      · rw [hacts, hnil]
        rfl
    · exact hstay (by rw [hq, if_neg hid]; rfl) (by rw [hnil]; rfl)
  | @act c encoded =>
    by_cases hid : c.id = id
    · refine .act k ?_ ?_ ?_
      · rw [hbefore, CallPhase.stage, if_pos hid]
      · rw [hstage, CallPhase.stage, if_pos hid]
      · rw [hacts, CallPhase.sends, hid, List.count_singleton_self]
    · refine hstay (by simp only [CallPhase.stage, if_neg hid]) ?_
      rw [CallPhase.sends, List.count_eq_zero, List.mem_singleton]
      exact fun h => hid h.symm
  | @leave q c hq hmarked =>
    have hnil : q.sends (.returned c) = [] := by cases q <;> rfl
    by_cases hid : c.id = id
    · refine .leave k ?_ hstage ?_ (hid ▸ hmarked)
      · rw [hbefore, hq, if_pos hid]
      · rw [hacts, hnil]
        rfl
    · exact hstay (by rw [hq, if_neg hid]; rfl) (by rw [hnil]; rfl)

/-- **A step of the pipeline is a step of the agents**, for every blob ID. -/
theorem Step.actOnce {b b' : Backend} {l : PipeEvent κ} (hstep : Step env b s l b' s')
    (hwf : s.index.WF) (hok : s.Undisturbed l) :
    ActOnce.Step (s.actOnce sent id) (s'.actOnce (sent ++ s.sends s' l) id) := by
  rcases hstep.cases with hcall | hneutral | ⟨pack, timedOut, rfl, hcallers, hindex⟩
  · exact hcall.actOnce hwf hok
  · refine .stay ?_ ?_ ?_
    · simp only [Pipe.actOnce, hneutral.callers]
    · simp only [Pipe.actOnce, hneutral.sends, List.append_nil]
    · simp only [Pipe.actOnce, MasterIndex.Marked, MasterIndex.HasEntry, hneutral.entries,
        hneutral.pending, imp_self]
  · refine .stay ?_ ?_ ?_
    · simp only [Pipe.actOnce, hcallers]
    · simp only [Pipe.actOnce, sends, List.append_nil]
    · simp only [Pipe.actOnce, hindex]
      exact marked_addPackLocked hwf hok

end Call

/-! ## Leaving nothing pending -/

/-- A blob that is pending, or that a call is about to mark as pending, is in no index. -/
structure Unregistered (s : Pipe κ n) : Prop where
  pending : ∀ id ∈ s.index.pendingBlobs, ¬ s.index.HasEntry id
  inserting : ∀ k c, s.callers k = .inserting c → ¬ s.index.HasEntry c.id

section Pending

variable {s s' : Pipe κ n}

theorem Unregistered.init {index : MasterIndex} (hpending : index.pendingBlobs = ∅) :
    (init index : Pipe κ n).Unregistered := by
  refine ⟨?_, ?_⟩
  · intro id hid
    have hmem : id ∈ index.pendingBlobs := hid
    rw [hpending] at hmem
    cases hmem
  · intro k c hc
    cases hc

/-- A lookup that goes on to mark its blob has found it in no index. -/
theorem inserting_look {mi : MasterIndex} {p : CallPhase} {c : Blob}
    (h : p.look env.toIndexEnv mi = .inserting c) : p = .inserting c ∨ ¬ mi.HasEntry c.id := by
  cases p with
  | notingIndex c' =>
    simp only [CallPhase.look] at h
    split at h
    · cases h
    · rename_i hnone
      cases h
      exact Or.inr fun hsome => hnone (MasterIndex.anyIndexContains_iff.mpr hsome)
  | inserting c' => exact Or.inl h
  | checking c' | lookup c' | noting c' =>
    simp only [CallPhase.look] at h
    split at h <;> cases h
  | idle | cloning c' | sending c' e | returned c' => cases h

theorem Unregistered.callStep [DecidableEq κ] {l : PipeEvent κ} (h : s.Unregistered)
    (hstep : CallStep env s l s') : s'.Unregistered := by
  have hcallers : ∀ {k : κ} {p : CallPhase},
      (∀ c, p = .inserting c → ¬ s.index.HasEntry c.id) →
      ∀ k' c, Function.update s.callers k p k' = .inserting c → ¬ s.index.HasEntry c.id := by
    intro k p hp k' c hc
    by_cases heq : k' = k
    · subst heq
      rw [Function.update_self] at hc
      exact hp c hc
    · rw [Function.update_of_ne heq] at hc
      exact h.inserting k' c hc
  cases hstep with
  | @look k =>
    refine ⟨h.pending, hcallers fun c hc => ?_⟩
    rcases inserting_look hc with hp | hnone
    · exact h.inserting k c hp
    · exact hnone
  | @insert k c hk =>
    refine ⟨?_, hcallers fun c hc => (by cases hc)⟩
    intro id hid
    rcases Finset.mem_insert.mp hid with rfl | hold
    · exact h.inserting k c hk
    · exact h.pending id hold
  | _ => exact ⟨h.pending, hcallers fun c hc => (by cases hc)⟩

/-- **Every undisturbed step keeps the pending blobs out of the indices.** -/
theorem Unregistered.step [DecidableEq κ] {b b' : Backend} {l : PipeEvent κ} (h : s.Unregistered)
    (hok : s.Undisturbed l) (hstep : Step env b s l b' s') : s'.Unregistered := by
  rcases hstep.cases with hcall | hneutral | ⟨pack, timedOut, rfl, hcallers, hindex⟩
  · exact h.callStep hcall
  · refine ⟨?_, ?_⟩
    · rw [hneutral.pending]
      rintro id hid ⟨loc, hl⟩
      exact h.pending id hid ⟨loc, hneutral.entries ▸ hl⟩
    · rw [hneutral.callers]
      rintro k c hc ⟨loc, hl⟩
      exact h.inserting k c hc ⟨loc, hneutral.entries ▸ hl⟩
  · refine ⟨?_, ?_⟩
    · rw [hindex]
      rintro id hid ⟨loc, hl⟩
      obtain ⟨hold, hnot⟩ := Finset.mem_sdiff.mp hid
      rcases MasterIndex.mem_entries_addPackLocked hl with hentry | ⟨d, hd, _, rfl, _⟩
      · exact h.pending id hold ⟨loc, hentry⟩
      · exact hnot (List.mem_toFinset.mpr (List.mem_map_of_mem hd))
    · rw [hindex, hcallers]
      rintro k c hc ⟨loc, hl⟩
      rcases MasterIndex.mem_entries_addPackLocked hl with hentry | ⟨d, hd, hne, hid, _⟩
      · exact h.inserting k c hc ⟨loc, hentry⟩
      · exact (hok d hd).2 hne k c hc hid

/-- **A successful flush has registered every pending blob**, so none is left. -/
theorem Unregistered.pendingBlobs_eq_empty {b : Backend} (h : s.Unregistered)
    (hinv : s.Inv env plain G F b) (hflush : s.flush = .finished true) :
    s.index.pendingBlobs = ∅ := by
  rw [Finset.eq_empty_iff_forall_notMem]
  intro id hid
  obtain ⟨t, _, htracked⟩ := hinv.known.pending id hid
  have hfin := (hinv.settled.flush [] (by rw [hflush]; rfl)).1
  obtain ⟨loc, hl, _⟩ := hinv.settled.entry hfin htracked
  exact h.pending id hid ⟨loc, hl⟩

end Pending

end Pipe

/-! ## Runs -/

/-- A client, with the IDs that were sent to its packer in order. -/
structure DedupSystem (κ : Type) (n : Nat) extends SaveSystem κ n where
  sent : List ID

namespace DedupSystem

variable {κ : Type} {n : Nat} {env : Env} {plain : ID → Bytes}

/-- A step of a client, with what it sends. -/
def Step [DecidableEq κ] (env : Env) (s : DedupSystem κ n) (l : PipeEvent κ)
    (s' : DedupSystem κ n) : Prop :=
  SaveSystem.Step env s.toSaveSystem l s'.toSaveSystem ∧
    s'.sent = s.sent ++ s.pipe.sends s'.pipe l

/-- A client that has loaded the index and sent nothing. -/
def start (env : Env) (b : Backend) (num : b.Instances) : DedupSystem κ n :=
  ⟨.start env b num, []⟩

/-- The steps of a client that run into no race. -/
def Undisturbed (s : DedupSystem κ n) (l : PipeEvent κ) : Prop := s.pipe.Undisturbed l

/-- The invariant of the runs without races. -/
structure Inv (env : Env) (plain : ID → Bytes) (s : DedupSystem κ n) : Prop where
  save : s.toSaveSystem.Inv env plain
  once : ∀ id, ActOnce.Inv (s.pipe.actOnce s.sent id)
  unregistered : s.pipe.Unregistered

theorem Inv.start {b : Backend} {num : b.Instances} (h : b.Consistent env plain) :
    (start env b num : DedupSystem κ n).Inv env plain where
  save := .start h
  once := fun _ => .init (fun _ => rfl) rfl
  unregistered := .init Backend.pendingBlobs_reload

theorem Inv.step [DecidableEq κ] {s s' : DedupSystem κ n} {l : PipeEvent κ}
    (hl : l.Honest env plain) (h : s.Inv env plain) (hstep : Guarded (Step env) Undisturbed s l s') :
    s'.Inv env plain := by
  obtain ⟨⟨hsave, hsent⟩, hok⟩ := hstep
  refine ⟨h.save.step hl hsave, ?_, h.unregistered.step hok hsave⟩
  intro id
  rw [hsent]
  exact (h.once id).step (Pipe.Step.actOnce hsave h.save.1.sound.index hok)

/-- **Without races deduplication is exact.** In every run of callers, saver, workers and flush
whose steps run into no race, no blob ID is sent to the packer twice, and once the flush has
returned `Ok` no blob is pending. -/
theorem sent_once_and_none_pending [DecidableEq κ] {b : Backend} {num : b.Instances}
    {s : DedupSystem κ n} {ls : List (PipeEvent κ)} (hb : b.Consistent env plain)
    (hls : ∀ l ∈ ls, l.Honest env plain)
    (hrun : Run (Guarded (Step env) Undisturbed) (start env b num) ls s) :
    (∀ id, s.sent.count id ≤ 1) ∧
      (s.pipe.flush = .finished true → s.pipe.index.pendingBlobs = ∅) := by
  have hinv : s.Inv env plain :=
    hrun.invariant_of_labels (fun _ _ _ hl h hstep => h.step hl hstep) hls (.start hb)
  exact ⟨fun id => (hinv.once id).once,
    fun hflush => hinv.unregistered.pendingBlobs_eq_empty hinv.save.1 hflush⟩

/-- A run goes on with a step of the pipeline. -/
theorem run_snoc [DecidableEq κ] {s₀ : DedupSystem κ n} {ls : List (PipeEvent κ)} {b b' : Backend}
    {p p' : Pipe κ n} {sent : List ID} {l : PipeEvent κ}
    (h : Run (Step env) s₀ ls ⟨⟨b, p⟩, sent⟩) (hstep : Pipe.Step env b p l b' p') :
    Run (Step env) s₀ (ls ++ [l]) ⟨⟨b', p'⟩, sent ++ p.sends p' l⟩ :=
  h.snoc ⟨hstep, rfl⟩

/-- A run without races goes on with an undisturbed step. -/
theorem guarded_snoc [DecidableEq κ] {s₀ : DedupSystem κ n} {ls : List (PipeEvent κ)}
    {b b' : Backend} {p p' : Pipe κ n} {sent : List ID} {l : PipeEvent κ}
    (h : Run (Guarded (Step env) Undisturbed) s₀ ls ⟨⟨b, p⟩, sent⟩)
    (hstep : Pipe.Step env b p l b' p') (hok : p.Undisturbed l) :
    Run (Guarded (Step env) Undisturbed) s₀ (ls ++ [l]) ⟨⟨b', p'⟩, sent ++ p.sends p' l⟩ :=
  h.snoc ⟨⟨hstep, rfl⟩, hok⟩

end DedupSystem

section Sample

open DedupSystem

/-- Two callers save one data blob, the second one after the first one has marked it, and the run to
the end of a successful flush meets no race. -/
theorem exists_run_undisturbed : ∃ ls s, Run (Guarded (DedupSystem.Step sampleEnv) Undisturbed)
      (DedupSystem.start sampleEnv emptyBackend emptyInstances : DedupSystem Bool 1) ls s ∧
    (∀ l ∈ ls, l.Honest sampleEnv samplePlain) ∧ s.sent = [5] ∧
    s.pipe.saved = [⟨5, .data, [5]⟩, ⟨5, .data, [5]⟩] ∧ s.pipe.flush = .finished true := by
  have h₀ : Run (Guarded (DedupSystem.Step sampleEnv) Undisturbed)
      (DedupSystem.start sampleEnv emptyBackend emptyInstances : DedupSystem Bool 1) [] _ := .nil
  -- the first call; only its second lookup could meet another one
  have h₁ := guarded_snoc h₀ (.call (.call (k := true) .data [5] .calculateID rfl)) trivial
  have h₂ := guarded_snoc h₁ (.call (.look (k := true))) (fun c hc => by cases hc)
  have h₃ := guarded_snoc h₂ (.call (.look (k := true)))
    (fun c hc _ => ⟨Finset.notMem_empty _, fun k => by cases k <;> rfl⟩)
  have h₄ := guarded_snoc h₃ (.call (.clone (k := true) sampleNonce rfl rfl rfl))
    (fun c hc => by cases hc)
  have h₅ := guarded_snoc h₄ (.call (.send (k := true) rfl rfl)) (fun c hc => by cases hc)
  have h₆ := guarded_snoc h₅ (.call (.look (k := true))) (fun c hc => by cases hc)
  have h₇ := guarded_snoc h₆ (.call (.look (k := true))) (fun c hc => by cases hc)
  have h₈ := guarded_snoc h₇ (.call (.insert (k := true) rfl)) (fun c hc => by cases hc)
  -- the second call finds the blob pending
  have i₁ := guarded_snoc h₈ (.call (.call (k := false) .data [5] .calculateID rfl)) trivial
  have i₂ := guarded_snoc i₁ (.call (.look (k := false))) (fun c hc => by cases hc)
  have i₃ := guarded_snoc i₂ (.call (.ret (k := false) rfl)) (fun c hc => by cases hc)
  have h₉ := guarded_snoc i₃ (.call (.ret (k := true) rfl)) (fun c hc => by cases hc)
  -- the saver packs the blob, sees the queue closed and hands the packer over
  have p₁ := guarded_snoc h₉ (.saver (.start rfl)) trivial
  have p₂ := guarded_snoc p₁ (.saver (.add rfl rfl rfl rfl)) trivial
  have p₃ := guarded_snoc p₂ (.flush (.take rfl)) trivial
  have p₄ := guarded_snoc p₃ (.saver (.close rfl rfl rfl fun k => by cases k <;> rfl)) trivial
  have p₅ := guarded_snoc p₄ (.saver (.take rfl (by decide) rfl)) trivial
  have p₆ := guarded_snoc p₅ (.saver (.send rfl)) trivial
  have p₇ := guarded_snoc p₆ (.saver (.dispatchEmpty rfl rfl)) trivial
  -- the worker registers the pack after the mark, and the padding has another ID
  have w₁ := guarded_snoc p₇ (.worker (.recv (w := 0) rfl rfl)) trivial
  have w₂ := guarded_snoc w₁
    (.worker (.finalize (w := 0) sampleNonce samplePadding rfl rfl rfl)) trivial
  have w₃ := guarded_snoc w₂ (.worker (.upload (w := 0) rfl ⟨rfl, rfl, by decide⟩)) trivial
  have w₄ := guarded_snoc w₃ (.worker (.register (w := 0) false rfl)) ?_
  have w₅ := guarded_snoc w₄ (.worker (.recycle (w := 0) rfl rfl)) trivial
  have w₆ := guarded_snoc w₅ (.worker (.closed (w := 0) rfl rfl rfl)) trivial
  have w₇ := guarded_snoc w₆ (.saver (.join rfl fun w => match w with | ⟨0, _⟩ => rfl)) trivial
  -- the flush writes the index
  have f₁ := guarded_snoc w₇ (.flush (.joinOk rfl rfl)) trivial
  have f₂ := guarded_snoc f₁ (.flush (.persist 9 rfl ⟨rfl, rfl, by decide⟩)) trivial
  have f₃ := guarded_snoc f₂ (.flush (.mark rfl)) trivial
  have f₄ := guarded_snoc f₃ (.flush (.done rfl)) trivial
  · refine ⟨_, _, f₄, ?_, rfl, rfl, rfl⟩
    simp only [List.nil_append, List.cons_append, List.forall_mem_cons, PipeEvent.Honest,
      List.not_mem_nil, false_implies, implies_true, and_true, true_and]
    exact ⟨⟨rfl, by decide⟩, rfl, by decide⟩
  · intro d hd
    have hd' : d ∈ Packer.pad samplePadding [(⟨5, .data, 0, 2, 1⟩ : PackedBlobDescriptor)] := hd
    refine ⟨fun ht hmem => ?_, fun _ k c hc => by cases k <;> cases hc⟩
    have hmem' : d.id ∈ insert (5 : ID) (Backend.reloadMasterIndex sampleEnv.toIndexEnv emptyBackend
        emptyInstances).pendingBlobs := hmem
    rw [Backend.pendingBlobs_reload, insert_empty_eq, Finset.mem_singleton] at hmem'
    rcases List.mem_append.mp hd' with hblob | hpad
    · rw [List.mem_singleton.mp hblob] at ht
      cases ht
    · obtain ⟨i, _, rfl⟩ := List.mem_map.mp hpad
      have hne : (200 : ID) ≠ 5 := by decide
      exact hne hmem'

/-- The run of two callers with one blob sends it once and leaves nothing pending. -/
theorem sample_sent_once : ∃ s : DedupSystem Bool 1, s.sent = [5] ∧
    s.pipe.saved = [⟨5, .data, [5]⟩, ⟨5, .data, [5]⟩] ∧ (∀ id, s.sent.count id ≤ 1) ∧
    s.pipe.flush = .finished true ∧ s.pipe.index.pendingBlobs = ∅ := by
  obtain ⟨ls, s, hrun, hhonest, hsent, hsaved, hflush⟩ := exists_run_undisturbed
  obtain ⟨honce, hpending⟩ := sent_once_and_none_pending consistent_emptyBackend hhonest hrun
  exact ⟨s, hsent, hsaved, honce, hflush, hpending hflush⟩

/-- The parameters of the concrete runs with packs of two blobs. -/
def smallPackEnv : Env := { sampleEnv with maxPackerSize := 4 }

/-- **Two calls for one blob race.** Both find it unknown and both send it; the pack with the two
copies is registered before the first call marks the blob, and the mark stays after a successful
flush. -/
theorem racing_calls_send_twice :
    ¬ (emptyBackend.reloadMasterIndex smallPackEnv.toIndexEnv emptyInstances).HasEntry 5 ∧
    ∃ ls s, Run (DedupSystem.Step smallPackEnv)
        (DedupSystem.start smallPackEnv emptyBackend emptyInstances : DedupSystem Bool 1) ls s ∧
      (∀ l ∈ ls, l.Honest smallPackEnv samplePlain) ∧ s.sent.count 5 = 2 ∧
      s.pipe.flush = .finished true ∧ 5 ∈ s.pipe.index.pendingBlobs := by
  have habsent :
      ¬ (emptyBackend.reloadMasterIndex smallPackEnv.toIndexEnv emptyInstances).HasEntry 5 := by
    rintro ⟨l, hl⟩
    obtain ⟨fid, f, hf, _⟩ := Backend.mem_entries_reload.mp hl
    cases hf
  refine ⟨habsent, ?_⟩
  have h₀ : Run (DedupSystem.Step smallPackEnv)
      (DedupSystem.start smallPackEnv emptyBackend emptyInstances : DedupSystem Bool 1) [] _ := .nil
  -- both calls look for the blob before either sends it
  have c₁ := run_snoc h₀ (.call (.call (k := true) .data [5] .calculateID rfl))
  have c₂ := run_snoc c₁ (.call (.call (k := false) .data [5] .calculateID rfl))
  have c₃ := run_snoc c₂ (.call (.look (k := true)))
  have c₄ := run_snoc c₃ (.call (.look (k := true)))
  have c₅ := run_snoc c₄ (.call (.look (k := false)))
  have c₆ := run_snoc c₅ (.call (.look (k := false)))
  have c₇ := run_snoc c₆ (.call (.clone (k := true) sampleNonce rfl rfl rfl))
  have c₈ := run_snoc c₇ (.call (.clone (k := false) sampleNonce rfl rfl rfl))
  have c₉ := run_snoc c₈ (.call (.send (k := true) rfl rfl))
  have d₁ := run_snoc c₉ (.call (.send (k := false) rfl rfl))
  -- the first call is about to mark the blob
  have d₂ := run_snoc d₁ (.call (.look (k := true)))
  have d₃ := run_snoc d₂ (.call (.look (k := true)))
  -- the pack with both copies is registered
  have p₁ := run_snoc d₃ (.saver (.start rfl))
  have p₂ := run_snoc p₁ (.saver (.add rfl rfl rfl rfl))
  have p₃ := run_snoc p₂ (.saver (.add rfl rfl rfl rfl))
  have p₄ := run_snoc p₃ (.saver (.take rfl (by decide) rfl))
  have p₅ := run_snoc p₄ (.saver (.send rfl))
  have w₁ := run_snoc p₅ (.worker (.recv (w := 0) rfl rfl))
  have w₂ := run_snoc w₁ (.worker (.finalize (w := 0) sampleNonce samplePadding rfl rfl rfl))
  have w₃ := run_snoc w₂ (.worker (.upload (w := 0) rfl ⟨rfl, rfl, by decide⟩))
  have w₄ := run_snoc w₃ (.worker (.register (w := 0) false rfl))
  have w₅ := run_snoc w₄ (.worker (.recycle (w := 0) rfl rfl))
  -- the mark comes after it
  have e₁ := run_snoc w₅ (.call (.insert (k := true) rfl))
  have e₂ := run_snoc e₁ (.call (.ret (k := true) rfl))
  have e₃ := run_snoc e₂ (.call (.look (k := false)))
  have e₄ := run_snoc e₃ (.call (.ret (k := false) rfl))
  -- the flush finds the pipeline empty and writes the index
  have q₁ := run_snoc e₄ (.flush (.take rfl))
  have q₂ := run_snoc q₁ (.saver (.close rfl rfl rfl fun k => by cases k <;> rfl))
  have q₃ := run_snoc q₂ (.saver (.dispatchEmpty rfl rfl))
  have q₄ := run_snoc q₃ (.saver (.dispatchEmpty rfl rfl))
  have q₅ := run_snoc q₄ (.worker (.closed (w := 0) rfl rfl rfl))
  have q₆ := run_snoc q₅ (.saver (.join rfl fun w => match w with | ⟨0, _⟩ => rfl))
  have q₇ := run_snoc q₆ (.flush (.joinOk rfl rfl))
  have q₈ := run_snoc q₇ (.flush (.persist 9 rfl ⟨rfl, rfl, by decide⟩))
  have q₉ := run_snoc q₈ (.flush (.mark rfl))
  have r₁ := run_snoc q₉ (.flush (.done rfl))
  refine ⟨_, _, r₁, ?_, rfl, rfl, ?_⟩
  · simp only [List.nil_append, List.cons_append, List.forall_mem_cons, PipeEvent.Honest,
      List.not_mem_nil, false_implies, implies_true, and_true]
    exact ⟨⟨rfl, by decide⟩, rfl, by decide⟩
  · exact Finset.mem_insert_self _ _

end Sample

end Mapache
