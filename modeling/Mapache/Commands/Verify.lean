import Mapache.Lib.Run
import Mapache.Repository.VerifyPack
import Mapache.Repository.VerifyRefs

/-!
# Verifying a repository

`run_with_repo` of `commands/cmd_verify.rs`, with `--read-packs` and without sampling, as a system:
the packs are checked first, several at a time, then the snapshots are listed, and up to four of
them are checked at a time against one set of verified trees. A signal may arrive between any two
steps.

The packs are checked against their footers and the snapshots against the index, and nothing
compares the two. What a run says that returns `Ok` is `verify_ok_sound`: when no signal came while
snapshots were still to be checked, all snapshots are intact in the index, the blobs of the footers
are good, and so a blob can be loaded whose entry in the index is in the footer of its pack.
-/

set_option autoImplicit false

namespace Mapache

open Lib

/-- The part of the arguments that has an effect. -/
structure VerifyArgs where
  failEarly : Bool
  parallel : Nat

/-- Where `verify_snapshot_refs` stands. -/
inductive SnapshotCheck where
  | starting (snapshotId : ID)
  /-- At the head of the loop over the stack. -/
  | popping (snapshotId : ID) (stack : List ID)
  /-- The tree was inserted into `verified_trees`, and is about to be loaded. -/
  | visiting (snapshotId : ID) (t : ID) (stack : List ID)
  | finished (snapshotId : ID) (ok : Bool)
  deriving DecidableEq

/-- Where the command stands. -/
inductive VerifyPhase where
  /-- `verify_packs_physically`: the packs that are to be checked, and those that are being checked.
  -/
  | packs (todo active : List ID)
  /-- The loop over the `SnapshotStream`: the snapshots that are to be loaded, and those that were.
  -/
  | listing (todo snapshots : List ID)
  /-- `verify_snapshots_logically`, with the checks that `buffered(4)` works on, in their order. -/
  | snapshots (waiting : List ID) (running : List SnapshotCheck)
  | finished (ok : Bool)

structure VerifyRun where
  phase : VerifyPhase
  /-- The flag of the `CleanupHandler`. -/
  interrupted : Bool
  /-- The `stop_flag` of the phase. -/
  stop : Bool
  packsCorrupt : Nat
  snapshotsCorrupt : Nat
  verifiedTrees : Finset ID

inductive VerifyEvent where
  | signal
  | task

section System

variable (env : Env) (codec : TreeCodec) (b : Backend) (mi : MasterIndex) (args : VerifyArgs)

/-- `verify_pack` returns the result. -/
def VerifiesPack (packId : ID) (result : Option PackStats) : Prop :=
  match b.packs.lookup packId with
  | none => result = none
  | some data =>
    if data.length ≤ chunkSize then result = verifyPackInline env mi data packId
    else VerifiesStreaming env mi data packId result

/-- The pack is counted as corrupt. -/
def PackStats.corrupt (stats : PackStats) : Bool := stats.bitRot || !stats.corruptBlobs.isEmpty

/-- A step of `verify_snapshot_refs`. Reading a file can fail for other reasons as well. -/
inductive CheckStep (V : Finset ID) : SnapshotCheck → Finset ID → SnapshotCheck → Prop where
  | startFail {id : ID} : CheckStep V (.starting id) V (.finished id false)
  | start {id : ID} {snap : Snapshot} : b.snapshots.lookup id = some snap →
      (mi.get env.toIndexEnv snap.tree).isSome → CheckStep V (.starting id) V (.popping id [snap.tree])
  | skip {id t : ID} {stack : List ID} : t ∈ V →
      CheckStep V (.popping id (t :: stack)) V (.popping id stack)
  | visit {id t : ID} {stack : List ID} : t ∉ V →
      CheckStep V (.popping id (t :: stack)) (insert t V) (.visiting id t stack)
  | check {id t : ID} {stack stack' : List ID} {nodes : List Node} {n : Nat} :
      loadTree env codec b mi t = some nodes →
      nodes.foldlM (verifyNode env.toIndexEnv mi b.existingPacks) (stack, 0) = .ok (stack', n) →
      CheckStep V (.visiting id t stack) V (.popping id stack')
  /-- The tree cannot be loaded, or has a broken reference. -/
  | checkFail {id t : ID} {stack : List ID} :
      CheckStep V (.visiting id t stack) V (.finished id false)
  | done {id : ID} : CheckStep V (.popping id []) V (.finished id true)

/-- The result of `emit_final_report`. When blobs are corrupt, the search for the files that they
belong to comes before, but their packs are counted. -/
def VerifyRun.report (s : VerifyRun) : Bool :=
  decide (s.packsCorrupt = 0 ∧ s.snapshotsCorrupt = 0)

/-- A step of the command, after `check_index_consistency`. -/
inductive VerifyStep (s : VerifyRun) : VerifyEvent → VerifyRun → Prop where
  | signal : VerifyStep s .signal { s with interrupted := true }
  | takePack {p : ID} {todo active : List ID} : s.phase = .packs (p :: todo) active →
      s.stop = false → s.interrupted = false → active.length < args.parallel →
      VerifyStep s .task { s with phase := .packs todo (p :: active) }
  /-- `take_while` ends the stream. -/
  | endPacks {todo active : List ID} : s.phase = .packs todo active →
      (s.stop = true ∨ s.interrupted = true) →
      VerifyStep s .task { s with phase := .packs [] active }
  | packOk {p : ID} {todo before after : List ID} {stats : PackStats} :
      s.phase = .packs todo (before ++ p :: after) → VerifiesPack env b mi p (some stats) →
      stats.corrupt = false →
      VerifyStep s .task { s with phase := .packs todo (before ++ after) }
  | packCorrupt {p : ID} {todo before after : List ID} :
      s.phase = .packs todo (before ++ p :: after) →
      VerifyStep s .task { s with
        phase := .packs todo (before ++ after)
        packsCorrupt := s.packsCorrupt + 1
        stop := s.stop || args.failEarly }
  /-- `VerifyError::Interrupted`. -/
  | packsInterrupted : s.phase = .packs [] [] → s.interrupted = true →
      VerifyStep s .task { s with phase := .finished false }
  /-- Stopped by `--fail-early`: the snapshots are not checked. -/
  | packsStopped : s.phase = .packs [] [] → s.interrupted = false → s.stop = true →
      VerifyStep s .task { s with phase := .finished s.report }
  | list : s.phase = .packs [] [] → s.interrupted = false → s.stop = false →
      VerifyStep s .task { s with phase := .listing b.snapshots.keys [] }
  | listed {id : ID} {todo snapshots : List ID} {snap : Snapshot} :
      s.phase = .listing (id :: todo) snapshots → b.snapshots.lookup id = some snap →
      VerifyStep s .task { s with phase := .listing todo (snapshots ++ [id]) }
  | unlisted {id : ID} {todo snapshots : List ID} : s.phase = .listing (id :: todo) snapshots →
      VerifyStep s .task { s with
        phase := if args.failEarly then .finished false else .listing todo snapshots
        snapshotsCorrupt := s.snapshotsCorrupt + 1 }
  /-- The snapshots are sorted by their time. -/
  | sort {snapshots waiting : List ID} : s.phase = .listing [] snapshots →
      waiting.Perm snapshots →
      VerifyStep s .task { s with phase := .snapshots waiting [], stop := false }
  | takeSnapshot {id : ID} {waiting : List ID} {running : List SnapshotCheck} :
      s.phase = .snapshots (id :: waiting) running → s.stop = false → s.interrupted = false →
      running.length < 4 →
      VerifyStep s .task { s with phase := .snapshots waiting (running ++ [.starting id]) }
  /-- `take_while` ends the stream. -/
  | endSnapshots {waiting : List ID} {running : List SnapshotCheck} :
      s.phase = .snapshots waiting running → (s.stop = true ∨ s.interrupted = true) →
      VerifyStep s .task { s with phase := .snapshots [] running }
  | check {waiting : List ID} {before after : List SnapshotCheck} {c c' : SnapshotCheck}
      {V : Finset ID} : s.phase = .snapshots waiting (before ++ c :: after) →
      CheckStep env codec b mi s.verifiedTrees c V c' →
      VerifyStep s .task { s with
        phase := .snapshots waiting (before ++ c' :: after)
        verifiedTrees := V }
  /-- The results come in the order of the snapshots. -/
  | yield {id : ID} {ok : Bool} {waiting : List ID} {running : List SnapshotCheck} :
      s.phase = .snapshots waiting (.finished id ok :: running) →
      VerifyStep s .task { s with
        phase := .snapshots waiting running
        snapshotsCorrupt := if ok then s.snapshotsCorrupt else s.snapshotsCorrupt + 1
        stop := s.stop || (!ok && args.failEarly) }
  /-- No one looks at the flag any more. -/
  | report : s.phase = .snapshots [] [] →
      VerifyStep s .task { s with phase := .finished s.report }

/-- The state after `check_index_consistency`. -/
def startVerify : VerifyRun where
  phase := .packs b.packs.keys []
  interrupted := false
  stop := false
  packsCorrupt := 0
  snapshotsCorrupt := 0
  verifiedTrees := ∅

/-- No snapshot is still to be checked, or the flag will be looked at again. -/
def VerifyRun.Attentive (s : VerifyRun) : Prop :=
  match s.phase with
  | .packs _ _ => True
  | .listing _ _ => False
  | .snapshots waiting _ => waiting = []
  | .finished _ => True

/-! ## What a success says -/

/-- The blobs of the footer that `verify_pack` comes to. -/
def checkedBlobs (data : Bytes) (packHeader : List PackedBlobDescriptor) :
    List PackedBlobDescriptor :=
  if data.length ≤ chunkSize then packHeader else streamedBlobs data packHeader

/-- The pack has a footer, and its blobs, as far as they are checked, are good. -/
def Backend.PackGood (p : ID) : Prop :=
  ∃ data packHeader, b.packs.lookup p = some data ∧
    Packer.parseFooter env.storage data = some packHeader ∧
    ∀ d ∈ checkedBlobs data packHeader, goodAt env data d = true

/-- The entry of a blob in the index is that of the footer of its pack. -/
def Backend.Tied (id : ID) (l : BlobLocator) : Prop :=
  l.length ≠ 0 ∧ ∃ data packHeader, b.packs.lookup l.packId = some data ∧
    Packer.parseFooter env.storage data = some packHeader ∧
    ∃ d ∈ checkedBlobs data packHeader, d.id = id ∧ d.offset = l.offset ∧ d.length = l.length

/-- What is verified: all snapshots are intact in the index, the packs are good, and so the blobs of
the snapshots can be loaded when the index agrees with the footers. -/
structure Backend.Verified : Prop where
  intact : ∀ id ∈ b.snapshots.keys, b.SnapshotIntact env codec mi id
  good : ∀ p ∈ b.packs.keys, b.PackGood env p
  loads : ∀ id snap blob l, b.snapshots.lookup id = some snap →
    Closure codec (Mark.contents env b mi) snap.tree blob → mi.get env.toIndexEnv blob = some l →
    b.Tied env blob l → ∃ bytes, loadBlob env b mi blob = some bytes ∧ env.fromContent bytes = blob

end System

section Soundness

variable {env : Env} {codec : TreeCodec} {b : Backend} {mi : MasterIndex} {args : VerifyArgs}

/-! ## The packs -/

/-- A pack that is not counted as corrupt is good. -/
theorem VerifiesPack.packGood {p : ID} {stats : PackStats}
    (h : VerifiesPack env b mi p (some stats)) (hclean : stats.corrupt = false) :
    b.PackGood env p := by
  have hnone : stats.corruptBlobs = [] := by
    rw [PackStats.corrupt, Bool.or_eq_false_iff] at hclean
    simpa using hclean.2
  unfold VerifiesPack at h
  cases hdata : b.packs.lookup p with
  | none =>
    rw [hdata] at h
    cases h
  | some data =>
    rw [hdata] at h
    dsimp only at h
    split at h
    · -- a small pack is read whole, a large one blob by blob
      rename_i hsmall
      obtain ⟨packHeader, hparse, hstats⟩ := Option.map_eq_some_iff.mp h.symm
      obtain ⟨-, hcorrupt⟩ := @foldl_countDescriptor env data packHeader .zero
      refine ⟨data, packHeader, hdata, hparse, fun d hd => ?_⟩
      rw [checkedBlobs, if_pos hsmall] at hd
      rw [← hstats] at hnone
      dsimp only at hnone
      rw [hnone, BlobCounts.corrupt_zero, List.nil_append] at hcorrupt
      have hfilter := List.map_eq_nil_iff.mp hcorrupt.symm
      simpa using List.filter_eq_nil_iff.mp hfilter d hd
    · rename_i hlarge
      unfold VerifiesStreaming at h
      rw [Packer.parsePackFooter_eq_parseFooter] at h
      cases hparse : Packer.parseFooter env.storage data with
      | none =>
        rw [hparse] at h
        cases h
      | some packHeader =>
        rw [hparse] at h
        obtain ⟨order, horder, hstats⟩ := h
        cases hstats
        obtain ⟨-, hcorrupt⟩ := counts_streaming hparse horder
        refine ⟨data, packHeader, hdata, hparse, fun d hd => ?_⟩
        rw [checkedBlobs, if_neg hlarge] at hd
        by_contra hbad
        rw [Bool.not_eq_true] at hbad
        have hmem := (hcorrupt d.id).mpr ⟨d, hd, rfl, hbad⟩
        dsimp only at hnone
        rw [hnone] at hmem
        cases hmem

/-- A good blob of a footer can be loaded by an entry of the index that agrees with the footer. -/
theorem Backend.PackGood.loads {id : ID} {l : BlobLocator} (hgood : b.PackGood env l.packId)
    (htied : b.Tied env id l) (hget : mi.get env.toIndexEnv id = some l) :
    ∃ bytes, loadBlob env b mi id = some bytes ∧ env.fromContent bytes = id := by
  obtain ⟨data, packHeader, hdata, hparse, hblobs⟩ := hgood
  obtain ⟨hlength, data', packHeader', hdata', hparse', d, hd, rfl, hoffset, hlen⟩ := htied
  rw [hdata] at hdata'
  cases hdata'
  rw [hparse] at hparse'
  cases hparse'
  have hat := hblobs d hd
  rw [goodAt, Bool.and_eq_true] at hat
  obtain ⟨bytes, hdecode, hhash⟩ := (Option.any_eq_true _ _).mp hat.2
  refine ⟨bytes, ?_, of_decide_eq_true hhash⟩
  have hrange : readRange data l.offset l.length = (blobAt data d).2 := by
    rw [readRange, if_neg hlength, blobAt, slice, hoffset, hlen, Nat.add_sub_cancel_left]
  rw [loadBlob, hget, Option.bind_some, Backend.loadFromPack, hdata]
  simpa [hrange, SecureStorage.decodeOwned_eq_decode] using hdecode

/-! ## The snapshots -/

namespace SnapshotCheck

/-- The trees that a check has still to pop. -/
def stack : SnapshotCheck → List ID
  | starting _ => []
  | popping _ stack => stack
  | visiting _ _ stack => stack
  | finished _ _ => []

/-- The tree that a check is about to load. -/
def tree : SnapshotCheck → Option ID
  | visiting _ t _ => some t
  | _ => none

end SnapshotCheck

/-- The tree is in the set of verified trees, or a check has still to pop it. -/
def Known (V : Finset ID) (running : List SnapshotCheck) (t : ID) : Prop :=
  t ∈ V ∨ ∃ c ∈ running, t ∈ c.stack

/-- What a step of a check that does not fail does. -/
structure CheckStep.Spec (env : Env) (codec : TreeCodec) (b : Backend) (mi : MasterIndex)
    (V : Finset ID) (c : SnapshotCheck) (V' : Finset ID) (c' : SnapshotCheck) : Prop where
  keeps : ∀ t ∈ c.stack, t ∈ V' ∨ t ∈ c'.stack
  inserts : ∀ t ∈ V', t ∈ V ∨ c'.tree = some t
  checks : ∀ t, c.tree = some t →
    b.TreeIntact env codec mi t ∧ ∀ t', SubtreeOf env codec b mi t t' → t' ∈ c'.stack
  starts : ∀ id, c = .starting id → ∃ snap, b.snapshots.lookup id = some snap ∧ snap.tree ∈ c'.stack

theorem CheckStep.subset {V V' : Finset ID} {c c' : SnapshotCheck}
    (h : CheckStep env codec b mi V c V' c') : V ⊆ V' := by
  cases h with
  | visit _ => exact Finset.subset_insert _ _
  | _ => exact Finset.Subset.refl _

/-- A check that failed takes no step. -/
theorem CheckStep.not_finished {V V' : Finset ID} {id : ID} {ok : Bool} {c' : SnapshotCheck} :
    ¬ CheckStep env codec b mi V (.finished id ok) V' c' := by
  intro h
  cases h

theorem CheckStep.spec {V V' : Finset ID} {c c' : SnapshotCheck}
    (h : CheckStep env codec b mi V c V' c') :
    (∃ id, c' = .finished id false) ∨ CheckStep.Spec env codec b mi V c V' c' := by
  cases h with
  | startFail => exact .inl ⟨_, rfl⟩
  | checkFail => exact .inl ⟨_, rfl⟩
  | @start id snap hsnap _ =>
    refine .inr ⟨by simp [SnapshotCheck.stack], fun t ht => .inl ht, by simp [SnapshotCheck.tree],
      ?_⟩
    rintro _ ⟨⟩
    exact ⟨snap, hsnap, by simp [SnapshotCheck.stack]⟩
  | @skip id t stack ht =>
    refine .inr ⟨fun t' ht' => ?_, fun t' ht' => .inl ht', by simp [SnapshotCheck.tree], by simp⟩
    rcases List.mem_cons.mp ht' with rfl | hstack
    · exact .inl ht
    · exact .inr hstack
  | @visit id t stack ht =>
    refine .inr ⟨fun t' ht' => ?_, fun t' ht' => ?_, by simp [SnapshotCheck.tree], by simp⟩
    · rcases List.mem_cons.mp ht' with rfl | hstack
      · exact .inl (Finset.mem_insert_self _ _)
      · exact .inr hstack
    · rcases Finset.mem_insert.mp ht' with rfl | hV
      · exact .inr rfl
      · exact .inl hV
  | @check id t stack stack' nodes n hload hnodes =>
    obtain ⟨hok, hstack⟩ := @foldlM_verifyNode env b mi nodes (stack, 0)
    have hmem := hstack _ hnodes
    refine .inr ⟨fun t' ht' => .inr ((hmem t').mpr (.inr ht')), fun t' ht' => .inl ht', ?_, by simp⟩
    rintro _ ⟨⟩
    refine ⟨⟨nodes, hload, hok.mp ⟨_, hnodes⟩⟩, fun t' ht' => ?_⟩
    exact (hmem t').mpr (.inl ((subtreeOf_iff_of_loadTree hload).mp ht'))
  | done =>
    exact .inr ⟨by simp [SnapshotCheck.stack], fun t ht => .inl ht, by simp [SnapshotCheck.tree],
      by simp⟩

/-- Nothing is forgotten: every snapshot waits, is about to be loaded, or has its root tree known,
and every tree of the set is about to be loaded, or is intact and its subtrees are known. -/
structure Covered (env : Env) (codec : TreeCodec) (b : Backend) (mi : MasterIndex) (waiting : List ID)
    (running : List SnapshotCheck) (V : Finset ID) : Prop where
  snapshots : ∀ id ∈ b.snapshots.keys, id ∈ waiting ∨ .starting id ∈ running ∨
    ∃ snap, b.snapshots.lookup id = some snap ∧ Known V running snap.tree
  trees : ∀ t ∈ V, (∃ c ∈ running, c.tree = some t) ∨
    b.TreeIntact env codec mi t ∧ ∀ t', SubtreeOf env codec b mi t t' → Known V running t'

theorem Known.step {V V' : Finset ID} {before after : List SnapshotCheck} {c c' : SnapshotCheck}
    (hV : V ⊆ V') (hkeeps : ∀ t ∈ c.stack, t ∈ V' ∨ t ∈ c'.stack) {t : ID}
    (h : Known V (before ++ c :: after) t) : Known V' (before ++ c' :: after) t := by
  rcases h with ht | ⟨d, hd, ht⟩
  · exact .inl (hV ht)
  · rcases List.mem_append.mp hd with hbefore | hcons
    · exact .inr ⟨d, List.mem_append_left _ hbefore, ht⟩
    · rcases List.mem_cons.mp hcons with rfl | hafter
      · rcases hkeeps t ht with hset | hstack
        · exact .inl hset
        · exact .inr ⟨c', by simp, hstack⟩
      · exact .inr ⟨d, by simp [hafter], ht⟩

/-- A step of a check that does not fail forgets nothing. -/
theorem Covered.step {waiting : List ID} {before after : List SnapshotCheck} {c c' : SnapshotCheck}
    {V V' : Finset ID} (h : Covered env codec b mi waiting (before ++ c :: after) V) (hV : V ⊆ V')
    (hspec : CheckStep.Spec env codec b mi V c V' c') :
    Covered env codec b mi waiting (before ++ c' :: after) V' := by
  have hknown : ∀ t, Known V (before ++ c :: after) t → Known V' (before ++ c' :: after) t :=
    fun t ht => ht.step hV hspec.keeps
  have hmem : c' ∈ before ++ c' :: after := by simp
  constructor
  · -- a snapshot is waiting, about to start, or its root is known
    intro id hid
    rcases h.snapshots id hid with hwaiting | hstarting | ⟨snap, hsnap, htree⟩
    · exact .inl hwaiting
    · by_cases hc : c = .starting id
      · obtain ⟨snap, hsnap, hstack⟩ := hspec.starts id hc
        exact .inr (.inr ⟨snap, hsnap, .inr ⟨c', hmem, hstack⟩⟩)
      · right
        left
        simp only [List.mem_append, List.mem_cons] at hstarting ⊢
        rcases hstarting with hbefore | heq | hafter
        · exact .inl hbefore
        · exact absurd heq.symm hc
        · exact .inr (.inr hafter)
    · exact .inr (.inr ⟨snap, hsnap, hknown _ htree⟩)
  · -- a known tree is being checked, or it is intact and what it names is known
    intro t ht
    rcases hspec.inserts t ht with hold | hnew
    · rcases h.trees t hold with ⟨d, hd, htree⟩ | ⟨hintact, hsub⟩
      · by_cases hc : d = c
        · obtain ⟨hintact, hsub⟩ := hspec.checks t (hc ▸ htree)
          exact .inr ⟨hintact, fun t' ht' => .inr ⟨c', hmem, hsub t' ht'⟩⟩
        · refine .inl ⟨d, ?_, htree⟩
          simp only [List.mem_append, List.mem_cons] at hd ⊢
          tauto
      · exact .inr ⟨hintact, fun t' ht' => hknown t' (hsub t' ht')⟩
    · exact .inl ⟨c', hmem, hnew⟩

/-- The result of a check that succeeded can be taken. -/
theorem Covered.yield {waiting : List ID} {running : List SnapshotCheck} {id : ID} {V : Finset ID}
    (h : Covered env codec b mi waiting (.finished id true :: running) V) :
    Covered env codec b mi waiting running V := by
  have hknown : ∀ t, Known V (.finished id true :: running) t → Known V running t := by
    rintro t (ht | ⟨c, hc, ht⟩)
    · exact .inl ht
    · rcases List.mem_cons.mp hc with rfl | hrunning
      · cases ht
      · exact .inr ⟨c, hrunning, ht⟩
  constructor
  · intro id' hid'
    rcases h.snapshots id' hid' with hwaiting | hstarting | ⟨snap, hsnap, htree⟩
    · exact .inl hwaiting
    · exact .inr (.inl (by simpa using hstarting))
    · exact .inr (.inr ⟨snap, hsnap, hknown _ htree⟩)
  · intro t ht
    rcases h.trees t ht with ⟨c, hc, htree⟩ | ⟨hintact, hsub⟩
    · rcases List.mem_cons.mp hc with rfl | hrunning
      · cases htree
      · exact .inl ⟨c, hrunning, htree⟩
    · exact .inr ⟨hintact, fun t' ht' => hknown t' (hsub t' ht')⟩

/-- The check of the next snapshot begins. -/
theorem Covered.take {id : ID} {waiting : List ID} {running : List SnapshotCheck} {V : Finset ID}
    (h : Covered env codec b mi (id :: waiting) running V) :
    Covered env codec b mi waiting (running ++ [.starting id]) V := by
  have hknown : ∀ t, Known V running t → Known V (running ++ [.starting id]) t := by
    rintro t (ht | ⟨c, hc, ht⟩)
    · exact .inl ht
    · exact .inr ⟨c, List.mem_append_left _ hc, ht⟩
  constructor
  · intro id' hid'
    rcases h.snapshots id' hid' with hwaiting | hstarting | ⟨snap, hsnap, htree⟩
    · rcases List.mem_cons.mp hwaiting with rfl | htail
      · exact .inr (.inl (by simp))
      · exact .inl htail
    · exact .inr (.inl (List.mem_append_left _ hstarting))
    · exact .inr (.inr ⟨snap, hsnap, hknown _ htree⟩)
  · intro t ht
    rcases h.trees t ht with ⟨c, hc, htree⟩ | ⟨hintact, hsub⟩
    · exact .inl ⟨c, List.mem_append_left _ hc, htree⟩
    · exact .inr ⟨hintact, fun t' ht' => hknown t' (hsub t' ht')⟩

/-- When nothing is left to do, the set is closed under subtrees and all of its trees are intact,
and so are all snapshots. -/
theorem Covered.intact {V : Finset ID} (h : Covered env codec b mi [] [] V) :
    ∀ id ∈ b.snapshots.keys, b.SnapshotIntact env codec mi id := by
  have hknown : ∀ t, Known V [] t → t ∈ V := by
    rintro t (ht | ⟨c, hc, -⟩)
    · exact ht
    · cases hc
  have htrees : ∀ t ∈ V, b.TreeIntact env codec mi t ∧
      ∀ t', SubtreeOf env codec b mi t t' → t' ∈ V := by
    intro t ht
    rcases h.trees t ht with ⟨c, hc, -⟩ | ⟨hintact, hsub⟩
    · cases hc
    · exact ⟨hintact, fun t' ht' => hknown t' (hsub t' ht')⟩
  intro id hid
  rcases h.snapshots id hid with hwaiting | hstarting | ⟨snap, hsnap, hroot⟩
  · cases hwaiting
  · cases hstarting
  · refine (Backend.snapshotIntact_iff hsnap).mpr fun t ht => (htrees t ?_).1
    rw [treeOf_iff_reachable] at ht
    induction ht with
    | refl => exact hknown _ hroot
    | tail _ hsub ih => exact (htrees _ ih).2 _ hsub

/-! ## A run of the command -/

/-- What holds while a verification runs. -/
def VerifyRun.Inv (env : Env) (codec : TreeCodec) (b : Backend) (mi : MasterIndex) (s : VerifyRun) :
    Prop :=
  match s.phase with
  | .packs todo active =>
    s.verifiedTrees = ∅ ∧ (s.packsCorrupt = 0 → s.stop = false ∧
      (s.interrupted = true ∨ ∀ p ∈ b.packs.keys, p ∈ todo ∨ p ∈ active ∨ b.PackGood env p))
  | .listing todo snapshots =>
    s.verifiedTrees = ∅ ∧ s.interrupted = false ∧
    (s.packsCorrupt = 0 → ∀ p ∈ b.packs.keys, b.PackGood env p) ∧
    (s.snapshotsCorrupt = 0 → ∀ id ∈ b.snapshots.keys, id ∈ todo ∨ id ∈ snapshots)
  | .snapshots waiting running =>
    (waiting ≠ [] → s.interrupted = false) ∧ (s.stop = true → s.snapshotsCorrupt ≠ 0) ∧
    (s.packsCorrupt = 0 → ∀ p ∈ b.packs.keys, b.PackGood env p) ∧
    (s.snapshotsCorrupt ≠ 0 ∨ (∃ id, .finished id false ∈ running) ∨
      Covered env codec b mi waiting running s.verifiedTrees)
  | .finished ok =>
    ok = true → (∀ p ∈ b.packs.keys, b.PackGood env p) ∧
      ∀ id ∈ b.snapshots.keys, b.SnapshotIntact env codec mi id

theorem startVerify_inv : (startVerify b).Inv env codec b mi :=
  ⟨rfl, fun _ => ⟨rfl, .inr fun _ hp => .inl hp⟩⟩

/-- A pack whose check ended was in the middle of the list of those that are checked. -/
theorem mem_of_removed {α : Type*} {x p : α} {before after : List α}
    (h : x ∈ before ++ p :: after) : x = p ∨ x ∈ before ++ after := by
  simp only [List.mem_append, List.mem_cons] at h ⊢
  tauto

namespace VerifyRun.Inv

variable {s : VerifyRun}

/-- A signal that the command will look at. -/
theorem signal (hs : s.Inv env codec b mi) (hsig : s.Attentive) :
    VerifyRun.Inv env codec b mi { s with interrupted := true } := by
  obtain ⟨phase, interrupted, stop, packsCorrupt, snapshotsCorrupt, V⟩ := s
  cases phase with
  | packs todo active => exact ⟨hs.1, fun h0 => ⟨(hs.2 h0).1, .inl rfl⟩⟩
  | listing todo snapshots => exact hsig.elim
  | snapshots waiting running => exact ⟨fun hne => absurd hsig hne, hs.2⟩
  | finished ok => exact hs

theorem takePack {p : ID} {todo active : List ID} (hs : s.Inv env codec b mi)
    (hphase : s.phase = .packs (p :: todo) active) :
    VerifyRun.Inv env codec b mi { s with phase := .packs todo (p :: active) } := by
  obtain ⟨phase, interrupted, stop, packsCorrupt, snapshotsCorrupt, V⟩ := s
  cases hphase
  refine ⟨hs.1, fun h0 => ⟨(hs.2 h0).1, ?_⟩⟩
  refine (hs.2 h0).2.imp_right fun hcover q hq => ?_
  rcases hcover q hq with htodo | hactive | hgood
  · rcases List.mem_cons.mp htodo with rfl | htodo
    · exact .inr (.inl (List.mem_cons_self ..))
    · exact .inl htodo
  · exact .inr (.inl (List.mem_cons_of_mem _ hactive))
  · exact .inr (.inr hgood)

/-- Without a corrupt pack only a signal ends the stream. -/
theorem endPacks {todo active : List ID} (hs : s.Inv env codec b mi)
    (hphase : s.phase = .packs todo active) (hended : s.stop = true ∨ s.interrupted = true) :
    VerifyRun.Inv env codec b mi { s with phase := .packs [] active } := by
  obtain ⟨phase, interrupted, stop, packsCorrupt, snapshotsCorrupt, V⟩ := s
  cases hphase
  refine ⟨hs.1, fun h0 => ⟨(hs.2 h0).1, .inl ?_⟩⟩
  rcases hended with hstop | hint
  · rw [(hs.2 h0).1] at hstop
    cases hstop
  · exact hint

theorem packOk {p : ID} {todo before after : List ID} {stats : PackStats}
    (hs : s.Inv env codec b mi) (hphase : s.phase = .packs todo (before ++ p :: after))
    (hverifies : VerifiesPack env b mi p (some stats)) (hclean : stats.corrupt = false) :
    VerifyRun.Inv env codec b mi { s with phase := .packs todo (before ++ after) } := by
  obtain ⟨phase, interrupted, stop, packsCorrupt, snapshotsCorrupt, V⟩ := s
  cases hphase
  refine ⟨hs.1, fun h0 => ⟨(hs.2 h0).1, ?_⟩⟩
  refine (hs.2 h0).2.imp_right fun hcover q hq => ?_
  rcases hcover q hq with htodo | hactive | hgood
  · exact .inl htodo
  · rcases mem_of_removed hactive with rfl | hrest
    · exact .inr (.inr (hverifies.packGood hclean))
    · exact .inr (.inl hrest)
  · exact .inr (.inr hgood)

/-- All packs have been checked. -/
theorem list (hs : s.Inv env codec b mi) (hphase : s.phase = .packs [] [])
    (hint : s.interrupted = false) :
    VerifyRun.Inv env codec b mi { s with phase := .listing b.snapshots.keys [] } := by
  obtain ⟨phase, interrupted, stop, packsCorrupt, snapshotsCorrupt, V⟩ := s
  cases hphase
  refine ⟨hs.1, hint, fun h0 p hp => ?_, fun _ id hid => .inl hid⟩
  rcases (hs.2 h0).2 with hsig | hcover
  · rw [hint] at hsig
    cases hsig
  · rcases hcover p hp with htodo | hactive | hgood
    · cases htodo
    · cases hactive
    · exact hgood

theorem listed {id : ID} {todo snapshots : List ID} (hs : s.Inv env codec b mi)
    (hphase : s.phase = .listing (id :: todo) snapshots) :
    VerifyRun.Inv env codec b mi { s with phase := .listing todo (snapshots ++ [id]) } := by
  obtain ⟨phase, interrupted, stop, packsCorrupt, snapshotsCorrupt, V⟩ := s
  cases hphase
  refine ⟨hs.1, hs.2.1, hs.2.2.1, fun h0 id' hid' => ?_⟩
  rcases hs.2.2.2 h0 id' hid' with htodo | hlisted
  · rcases List.mem_cons.mp htodo with rfl | htodo
    · exact .inr (by simp)
    · exact .inl htodo
  · exact .inr (List.mem_append_left _ hlisted)

/-- A snapshot that cannot be loaded is counted. -/
theorem unlisted {id : ID} {todo snapshots : List ID} (args : VerifyArgs) (hs : s.Inv env codec b mi)
    (hphase : s.phase = .listing (id :: todo) snapshots) :
    VerifyRun.Inv env codec b mi { s with
      phase := if args.failEarly then .finished false else .listing todo snapshots
      snapshotsCorrupt := s.snapshotsCorrupt + 1 } := by
  obtain ⟨phase, interrupted, stop, packsCorrupt, snapshotsCorrupt, V⟩ := s
  cases hphase
  dsimp only [VerifyRun.Inv]
  split
  · rename_i heq
    split at heq <;> cases heq
  · rename_i heq
    split at heq <;> cases heq
    exact ⟨hs.1, hs.2.1, hs.2.2.1, fun h0 => absurd h0 (Nat.succ_ne_zero _)⟩
  · rename_i heq
    split at heq <;> cases heq
  · rename_i heq
    split at heq <;> cases heq
    exact fun hok => Bool.noConfusion hok

/-- Every snapshot that is listed waits. -/
theorem sort {snapshots waiting : List ID} (hs : s.Inv env codec b mi)
    (hphase : s.phase = .listing [] snapshots) (hperm : waiting.Perm snapshots) :
    VerifyRun.Inv env codec b mi { s with phase := .snapshots waiting [], stop := false } := by
  obtain ⟨phase, interrupted, stop, packsCorrupt, snapshotsCorrupt, V⟩ := s
  cases hphase
  obtain ⟨rfl, hint, hpacks, hcover⟩ := hs
  refine ⟨fun _ => hint, fun hstop => Bool.noConfusion hstop, hpacks, ?_⟩
  by_cases h0 : snapshotsCorrupt = 0
  · refine .inr (.inr ⟨fun id hid => ?_, fun t ht => absurd ht (Finset.notMem_empty t)⟩)
    rcases hcover h0 id hid with htodo | hlisted
    · cases htodo
    · exact .inl (hperm.mem_iff.mpr hlisted)
  · exact .inl h0

theorem takeSnapshot {id : ID} {waiting : List ID} {running : List SnapshotCheck}
    (hs : s.Inv env codec b mi) (hphase : s.phase = .snapshots (id :: waiting) running)
    (hint : s.interrupted = false) :
    VerifyRun.Inv env codec b mi
      { s with phase := .snapshots waiting (running ++ [.starting id]) } := by
  obtain ⟨phase, interrupted, stop, packsCorrupt, snapshotsCorrupt, V⟩ := s
  cases hphase
  refine ⟨fun _ => hint, hs.2.1, hs.2.2.1, ?_⟩
  rcases hs.2.2.2 with hbad | ⟨id, hfailed⟩ | hcover
  · exact .inl hbad
  · exact .inr (.inl ⟨id, List.mem_append_left _ hfailed⟩)
  · exact .inr (.inr hcover.take)

/-- A signal ends the stream only when no snapshot is left to be taken. -/
theorem endSnapshots {waiting : List ID} {running : List SnapshotCheck} (hs : s.Inv env codec b mi)
    (hphase : s.phase = .snapshots waiting running)
    (hended : s.stop = true ∨ s.interrupted = true) :
    VerifyRun.Inv env codec b mi { s with phase := .snapshots [] running } := by
  obtain ⟨phase, interrupted, stop, packsCorrupt, snapshotsCorrupt, V⟩ := s
  cases hphase
  refine ⟨fun hne => absurd rfl hne, hs.2.1, hs.2.2.1, ?_⟩
  rcases hended with hstop | hint
  · exact .inl (hs.2.1 hstop)
  · have hnil : waiting = [] := by
      by_contra hne
      rw [show interrupted = true from hint] at hs
      cases hs.1 hne
    exact hnil ▸ hs.2.2.2

/-- A check that fails is not forgotten, and one that does not forgets nothing. -/
theorem check {waiting : List ID} {before after : List SnapshotCheck} {c c' : SnapshotCheck}
    {V' : Finset ID} (hs : s.Inv env codec b mi)
    (hphase : s.phase = .snapshots waiting (before ++ c :: after))
    (hcheck : CheckStep env codec b mi s.verifiedTrees c V' c') :
    VerifyRun.Inv env codec b mi { s with
      phase := .snapshots waiting (before ++ c' :: after)
      verifiedTrees := V' } := by
  obtain ⟨phase, interrupted, stop, packsCorrupt, snapshotsCorrupt, V⟩ := s
  cases hphase
  refine ⟨hs.1, hs.2.1, hs.2.2.1, ?_⟩
  rcases hs.2.2.2 with hbad | ⟨id, hfailed⟩ | hcover
  · exact .inl hbad
  · rcases mem_of_removed hfailed with rfl | hrest
    · exact absurd hcheck CheckStep.not_finished
    · refine .inr (.inl ⟨id, ?_⟩)
      simp only [List.mem_append, List.mem_cons] at hrest ⊢
      tauto
  · rcases hcheck.spec with ⟨id, rfl⟩ | hspec
    · exact .inr (.inl ⟨id, by simp⟩)
    · exact .inr (.inr (hcover.step hcheck.subset hspec))

theorem yield {id : ID} {ok : Bool} {waiting : List ID} {running : List SnapshotCheck}
    (args : VerifyArgs) (hs : s.Inv env codec b mi)
    (hphase : s.phase = .snapshots waiting (.finished id ok :: running)) :
    VerifyRun.Inv env codec b mi { s with
      phase := .snapshots waiting running
      snapshotsCorrupt := if ok then s.snapshotsCorrupt else s.snapshotsCorrupt + 1
      stop := s.stop || (!ok && args.failEarly) } := by
  obtain ⟨phase, interrupted, stop, packsCorrupt, snapshotsCorrupt, V⟩ := s
  cases hphase
  cases ok with
  | false =>
    exact ⟨hs.1, fun _ => Nat.succ_ne_zero _, hs.2.2.1, .inl (Nat.succ_ne_zero _)⟩
  | true =>
    refine ⟨hs.1, fun hstop => hs.2.1 (by simpa using hstop), hs.2.2.1, ?_⟩
    rcases hs.2.2.2 with hbad | ⟨id', hfailed⟩ | hcover
    · exact .inl hbad
    · exact .inr (.inl ⟨id', by simpa using hfailed⟩)
    · exact .inr (.inr hcover.yield)

/-- Without a corrupt pack and a corrupt snapshot nothing was missed. -/
theorem report (hs : s.Inv env codec b mi) (hphase : s.phase = .snapshots [] []) :
    VerifyRun.Inv env codec b mi { s with phase := .finished s.report } := by
  obtain ⟨phase, interrupted, stop, packsCorrupt, snapshotsCorrupt, V⟩ := s
  cases hphase
  intro hok
  obtain ⟨hpacks, hsnapshots⟩ := of_decide_eq_true hok
  refine ⟨hs.2.2.1 hpacks, ?_⟩
  rcases hs.2.2.2 with hbad | ⟨id, hfailed⟩ | hcover
  · exact absurd hsnapshots hbad
  · cases hfailed
  · exact hcover.intact

theorem step {t : VerifyRun} {l : VerifyEvent} (hs : s.Inv env codec b mi)
    (h : VerifyStep env codec b mi args s l t) (hattentive : l = .signal → s.Attentive) :
    t.Inv env codec b mi := by
  cases h with
  | signal => exact hs.signal (hattentive rfl)
  | takePack hphase _ _ _ => exact hs.takePack hphase
  | endPacks hphase hended => exact hs.endPacks hphase hended
  | packOk hphase hverifies hclean => exact hs.packOk hphase hverifies hclean
  | packCorrupt hphase =>
    obtain ⟨phase, interrupted, stop, packsCorrupt, snapshotsCorrupt, V⟩ := s
    cases hphase
    exact ⟨hs.1, fun h0 => absurd h0 (Nat.succ_ne_zero _)⟩
  | packsInterrupted _ _ => exact fun hok => Bool.noConfusion hok
  | packsStopped hphase _ hstop =>
    obtain ⟨phase, interrupted, stop, packsCorrupt, snapshotsCorrupt, V⟩ := s
    cases hphase
    intro hok
    have h0 := (of_decide_eq_true hok).1
    rw [(hs.2 h0).1] at hstop
    cases hstop
  | list hphase hint _ => exact hs.list hphase hint
  | listed hphase _ => exact hs.listed hphase
  | unlisted hphase => exact hs.unlisted args hphase
  | sort hphase hperm => exact hs.sort hphase hperm
  | takeSnapshot hphase _ hint _ => exact hs.takeSnapshot hphase hint
  | endSnapshots hphase hended => exact hs.endSnapshots hphase hended
  | check hphase hcheck => exact hs.check hphase hcheck
  | yield hphase => exact hs.yield args hphase
  | report hphase => exact hs.report hphase

end VerifyRun.Inv

/-- **A verification that succeeds has verified everything**, if no signal came between the end of
the packs and the start of the last snapshot. -/
theorem verify_ok_sound (env : Env) (codec : TreeCodec) (b : Backend) (mi : MasterIndex)
    (args : VerifyArgs) {ls : List VerifyEvent} {s : VerifyRun}
    (h : Run (Guarded (VerifyStep env codec b mi args) fun s l => l = .signal → s.Attentive)
      (startVerify b) ls s) (hok : s.phase = .finished true) : b.Verified env codec mi := by
  have hinv : s.Inv env codec b mi :=
    h.invariant (fun _ _ _ hs hstep => hs.step hstep.1 hstep.2) startVerify_inv
  rw [VerifyRun.Inv, hok] at hinv
  obtain ⟨hpacks, hintact⟩ := hinv rfl
  refine ⟨hintact, hpacks, fun id snap blob l _ _ hget htied => ?_⟩
  obtain ⟨data, -, hdata, -⟩ := htied.2
  have hpack : l.packId ∈ b.packs.keys := by
    rw [← AList.mem_keys, ← AList.lookup_isSome, hdata, Option.isSome_some]
  exact (hpacks _ hpack).loads htied hget

end Soundness

/-! ## What a success does not say -/

section Sample

open Gc (gcNode gcCodec gcBackend gcIndex)

/-- The blobs of the concrete packs: the tree and the blob of its file. -/
def verifyFooter : Bytes := 1 :: Packer.footerBytes [⟨1, .tree, 0, 2, 1⟩, ⟨5, .data, 2, 2, 1⟩]

/-- Its ID is 1. -/
def verifyPackData : Bytes :=
  [1, 1, 1, 5] ++ verifyFooter ++ littleEndian 4 verifyFooter.length

/-- A repository with one pack, in which an index file has the blob 5 at the offset. -/
def indexedAt (offset : Nat) : Backend :=
  gcBackend (AList.insert 1 verifyPackData ∅)
    (AList.insert 31 ⟨[⟨1, [⟨1, .tree, 0, 2, 1⟩, ⟨5, .data, offset, 2, 1⟩]⟩]⟩ ∅)

/-- A step of the only check that is running. -/
theorem VerifyStep.only {env : Env} {codec : TreeCodec} {b : Backend} {mi : MasterIndex}
    {args : VerifyArgs} {s : VerifyRun} {waiting : List ID} {c c' : SnapshotCheck} {V : Finset ID}
    (hphase : s.phase = .snapshots waiting [c])
    (hcheck : CheckStep env codec b mi s.verifiedTrees c V c') :
    VerifyStep env codec b mi args s .task
      { s with phase := .snapshots waiting [c'], verifiedTrees := V } :=
  @VerifyStep.check env codec b mi args s waiting [] [] c c' V hphase hcheck

theorem parseFooter_verifyPackData : Packer.parseFooter sampleEnv.storage verifyPackData =
    some [⟨1, .tree, 0, 2, 1⟩, ⟨5, .data, 2, 2, 1⟩] := by decide +kernel

theorem length_verifyPackData : verifyPackData.length ≤ chunkSize := by decide

theorem verifiesPack_indexedAt (offset : Nat) (mi : MasterIndex) : ∃ stats : PackStats,
    VerifiesPack sampleEnv (indexedAt offset) mi 1 (some stats) ∧ stats.corrupt = false := by
  refine ⟨⟨numDangling sampleEnv mi [⟨1, .tree, 0, 2, 1⟩, ⟨5, .data, 2, 2, 1⟩], 2, [], 4, false⟩, ?_,
    rfl⟩
  have hdata : (indexedAt offset).packs.lookup 1 = some verifyPackData := rfl
  rw [VerifiesPack, hdata]
  dsimp only
  rw [if_pos length_verifyPackData, verifyPackInline, parseFooter_verifyPackData]
  rfl

/-- The run that checks the pack and the snapshot, when the index knows the tree and the blob. -/
theorem exists_run_indexedAt {offset : Nat} {args : VerifyArgs} (hparallel : 0 < args.parallel)
    (hload : loadTree sampleEnv gcCodec (indexedAt offset) (gcIndex (indexedAt offset)) 1 =
      some [gcNode])
    (hnodes : [gcNode].foldlM (verifyNode sampleEnv.toIndexEnv (gcIndex (indexedAt offset))
      (indexedAt offset).existingPacks) ([], 0) = .ok ([], 1))
    (hroot : ((gcIndex (indexedAt offset)).get sampleEnv.toIndexEnv 1).isSome) :
    ∃ ls s, (∀ l ∈ ls, l = VerifyEvent.task) ∧ s.phase = .finished true ∧
      Run (VerifyStep sampleEnv gcCodec (indexedAt offset) (gcIndex (indexedAt offset)) args)
        (startVerify (indexedAt offset)) ls s := by
  obtain ⟨stats, hverifies, hclean⟩ := verifiesPack_indexedAt offset (gcIndex (indexedAt offset))
  have p₀ : Run (VerifyStep sampleEnv gcCodec (indexedAt offset) (gcIndex (indexedAt offset)) args)
      (startVerify (indexedAt offset)) [] _ := .nil
  have p₁ := p₀.snoc (.takePack (p := 1) rfl rfl rfl hparallel)
  have p₂ := p₁.snoc (.packOk (show _ = VerifyPhase.packs [] ([] ++ 1 :: []) from rfl) hverifies
    hclean)
  have l₀ := p₂.snoc (.list rfl rfl rfl)
  have l₁ := l₀.snoc (.listed rfl (show (indexedAt offset).snapshots.lookup 50 = some ⟨1⟩ from rfl))
  have s₀ := l₁.snoc (.sort rfl (List.Perm.refl _))
  have s₁ := s₀.snoc (.takeSnapshot rfl rfl rfl (by decide))
  have s₂ := s₁.snoc (.only rfl (.start rfl hroot))
  have s₃ := s₂.snoc (.only rfl (.visit (Finset.notMem_empty _)))
  have s₄ := s₃.snoc (.only rfl (.check hload hnodes))
  have s₅ := s₄.snoc (.only rfl .done)
  have s₆ := s₅.snoc (.yield rfl)
  refine ⟨_, _, ?_, ?_, s₆.snoc (.report rfl)⟩
  · simp
  · rfl

/-- A signal comes while the snapshots are listed, and the one that was listed is not checked. -/
theorem exists_run_interrupted {b : Backend} {env : Env} {codec : TreeCodec} {mi : MasterIndex}
    {args : VerifyArgs} (hpacks : b.packs.keys = []) {id : ID} {snap : Snapshot}
    (hkeys : b.snapshots.keys = [id]) (hsnap : b.snapshots.lookup id = some snap) :
    ∃ ls s, s.phase = .finished true ∧ Run (VerifyStep env codec b mi args) (startVerify b) ls s := by
  have p₀ : Run (VerifyStep env codec b mi args) (startVerify b) [] _ := .nil
  have l₀ := p₀.snoc (.list (congrArg (VerifyPhase.packs · []) hpacks) rfl rfl)
  have l₁ := l₀.snoc .signal
  have l₂ := l₁.snoc (.listed (congrArg (VerifyPhase.listing · []) hkeys) hsnap)
  have s₀ := l₂.snoc (.sort rfl (List.Perm.refl _))
  have s₁ := s₀.snoc (.endSnapshots rfl (.inr rfl))
  exact ⟨_, _, rfl, s₁.snoc (.report rfl)⟩

/-- The blob 5 is good, and the entry that the index has for it is that of the tree: no signal
comes, and the verification succeeds. -/
theorem verify_passes_unrestorable :
    (∃ ls s, s.phase = .finished true ∧
      Run (VerifyStep sampleEnv gcCodec (gcBackend ∅ ∅) (gcIndex (gcBackend ∅ ∅)) ⟨false, 4⟩)
        (startVerify (gcBackend ∅ ∅)) ls s) ∧
    ¬ (gcBackend ∅ ∅).SnapshotIntact sampleEnv gcCodec (gcIndex (gcBackend ∅ ∅)) 50 ∧
    (∃ ls s, (∀ l ∈ ls, l = VerifyEvent.task) ∧ s.phase = .finished true ∧
      Run (VerifyStep sampleEnv gcCodec (indexedAt 0) (gcIndex (indexedAt 0)) ⟨false, 4⟩)
        (startVerify (indexedAt 0)) ls s) ∧
    Closure gcCodec (Mark.contents sampleEnv (indexedAt 0) (gcIndex (indexedAt 0))) 1 5 ∧
    loadBlob sampleEnv (indexedAt 0) (gcIndex (indexedAt 0)) 5 = some [1] ∧
    sampleEnv.fromContent [1] ≠ 5 := by
  refine ⟨exists_run_interrupted rfl rfl rfl, ?_, ?_, ?_, by decide +kernel, by decide⟩
  · rintro ⟨snap, hsnap, hloads, -⟩
    cases hsnap
    have hnone : loadTree sampleEnv gcCodec (gcBackend ∅ ∅) (gcIndex (gcBackend ∅ ∅)) 1 = none := by
      decide
    have hsome := hloads 1 .root
    rw [hnone] at hsome
    cases hsome
  · exact exists_run_indexedAt (by decide) (by decide +kernel) rfl (by decide +kernel)
  · exact .blob .root ⟨[gcNode], by decide +kernel, List.mem_singleton_self _⟩ rfl
      (List.mem_singleton_self _)

/-- A run without a signal. -/
theorem attentive_of_task {env : Env} {codec : TreeCodec} {b : Backend} {mi : MasterIndex}
    {args : VerifyArgs} {ls : List VerifyEvent} {s t : VerifyRun}
    (h : Run (VerifyStep env codec b mi args) s ls t) (htask : ∀ l ∈ ls, l = VerifyEvent.task) :
    Run (Guarded (VerifyStep env codec b mi args) fun s l => l = .signal → s.Attentive) s ls t := by
  induction h with
  | nil => exact .nil
  | snoc _ hstep ih =>
    refine (ih fun l hl => htask l (List.mem_append_left _ hl)).snoc ⟨hstep, fun hsignal => ?_⟩
    rw [htask _ (List.mem_append_right _ (List.mem_singleton_self _))] at hsignal
    cases hsignal

/-- With the offset of the footer the blob can be loaded. -/
theorem verify_ok_sound_indexedAt :
    (indexedAt 2).Verified sampleEnv gcCodec (gcIndex (indexedAt 2)) ∧
    ∃ bytes, loadBlob sampleEnv (indexedAt 2) (gcIndex (indexedAt 2)) 5 = some bytes ∧
      sampleEnv.fromContent bytes = 5 := by
  obtain ⟨ls, s, htask, hok, hrun⟩ := @exists_run_indexedAt 2 ⟨false, 4⟩ (by decide)
    (by decide +kernel) rfl (by decide +kernel)
  have hverified := verify_ok_sound sampleEnv gcCodec (indexedAt 2) (gcIndex (indexedAt 2)) ⟨false, 4⟩
    (attentive_of_task hrun htask) hok
  have hget : (gcIndex (indexedAt 2)).get sampleEnv.toIndexEnv 5 = some ⟨1, 2, 2, 1, .data⟩ := by
    decide +kernel
  have hreach : Closure gcCodec (Mark.contents sampleEnv (indexedAt 2) (gcIndex (indexedAt 2))) 1 5 :=
    .blob .root ⟨[gcNode], by decide +kernel, List.mem_singleton_self _⟩ rfl
      (List.mem_singleton_self _)
  refine ⟨hverified, hverified.loads 50 ⟨1⟩ 5 _ rfl hreach hget ⟨by decide, verifyPackData, _, rfl,
    parseFooter_verifyPackData, ⟨5, .data, 2, 2, 1⟩, ?_, rfl, rfl, rfl⟩⟩
  rw [checkedBlobs, if_pos length_verifyPackData]
  decide

end Sample

end Mapache
