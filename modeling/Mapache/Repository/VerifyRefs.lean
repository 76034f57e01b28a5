import Mapache.Lib.Search
import Mapache.Repository.GcSafety

/-!
# Verifying the references of a snapshot

`verify_snapshot_refs`: a depth-first walk over the trees of a snapshot that looks up every blob and
subtree in the index and checks that its pack exists. The trees that were met are remembered in a
set that the calls for all snapshots share, so that a tree is walked once only.

A tree goes into the set before it is loaded and checked, and an error leaves it there. A later call
then takes it for verified. `isOk_verifySnapshotRefs` says what a call really checks, the trees that
it reaches around the set, and `Backend.Hidden` when that misses a broken tree.
-/

set_option autoImplicit false

namespace Mapache

open Lib

/-- The errors of `verify_snapshot_refs`. -/
inductive VerifyError where
  /-- The snapshot file cannot be loaded. -/
  | snapshot (id : ID)
  /-- `snapshot root tree is missing from index`. -/
  | rootMissing (tree : ID)
  /-- The tree cannot be loaded. -/
  | load (tree : ID)
  /-- `broken reference: Pack referenced by blob is missing from storage`. -/
  | packMissing (pack blob : ID)
  /-- `broken reference: Blob is missing from index`. -/
  | blobMissing (blob : ID)
  deriving DecidableEq

/-- `Tree::load_from_repo`. -/
def loadTree (env : Env) (codec : TreeCodec) (b : Backend) (mi : MasterIndex) (t : ID) :
    Option (List Node) :=
  (loadBlob env b mi t).bind codec.fromSlice

/-- The blobs and the subtree of a node. -/
def Node.referencedIds (node : Node) : List ID := node.blobs.getD [] ++ node.tree.toList

/-- The check of one reference, which is then counted. -/
def verifyReference (env : IndexEnv) (mi : MasterIndex) (existingPacks : Finset ID)
    (verifiedCount : Nat) (id : ID) : Except VerifyError Nat :=
  match mi.get env id with
  | some blobLocator =>
    if blobLocator.packId ∈ existingPacks then .ok (verifiedCount + 1)
    else .error (.packMissing blobLocator.packId id)
  | none => .error (.blobMissing id)

/-- The body of the loop over the nodes of a tree: the stack, its top first, and the count. -/
def verifyNode (env : IndexEnv) (mi : MasterIndex) (existingPacks : Finset ID) (s : List ID × Nat)
    (node : Node) : Except VerifyError (List ID × Nat) := do
  let verifiedCount ← node.referencedIds.foldlM (verifyReference env mi existingPacks) s.2
  pure (node.tree.toList ++ s.1, verifiedCount)

theorem card_compl_insert_lt {V : Finset ID} {t : ID} (h : t ∉ V) :
    (insert t V)ᶜ.card < Vᶜ.card := by
  refine Finset.card_lt_card ?_
  rw [Finset.compl_ssubset_compl]
  exact Finset.ssubset_insert h

/-- The loop over the stack. It returns the set of the trees that were met as well, which outlives
an error. -/
def verifyTrees (env : Env) (codec : TreeCodec) (b : Backend) (mi : MasterIndex)
    (existingPacks : Finset ID) (stack : List ID) (verifiedTrees : Finset ID) (verifiedCount : Nat) :
    Except VerifyError Nat × Finset ID :=
  match stack with
  | [] => (.ok verifiedCount, verifiedTrees)
  | t :: rest =>
    if _h : t ∈ verifiedTrees then
      verifyTrees env codec b mi existingPacks rest verifiedTrees verifiedCount
    else
      match loadTree env codec b mi t with
      | none => (.error (.load t), insert t verifiedTrees)
      | some nodes =>
        match nodes.foldlM (verifyNode env.toIndexEnv mi existingPacks) (rest, verifiedCount) with
        | .error e => (.error e, insert t verifiedTrees)
        | .ok (stack', count) =>
          verifyTrees env codec b mi existingPacks stack' (insert t verifiedTrees) count
termination_by (verifiedTreesᶜ.card, stack.length)
decreasing_by
  · exact Prod.Lex.right _ (Nat.lt_succ_self _)
  · exact Prod.Lex.left _ _ (card_compl_insert_lt _h)

/-- `verify_snapshot_refs`. -/
def verifySnapshotRefs (env : Env) (codec : TreeCodec) (b : Backend) (mi : MasterIndex)
    (existingPacks : Finset ID) (snapshotId : ID) (verifiedTrees : Finset ID) :
    Except VerifyError Nat × Finset ID :=
  match b.snapshots.lookup snapshotId with
  | none => (.error (.snapshot snapshotId), verifiedTrees)
  | some snapshot =>
    if (mi.get env.toIndexEnv snapshot.tree).isNone then
      (.error (.rootMissing snapshot.tree), verifiedTrees)
    else verifyTrees env codec b mi existingPacks [snapshot.tree] verifiedTrees 0

/-- The packs that the backend lists. -/
def Backend.existingPacks (b : Backend) : Finset ID := b.packs.keys.toFinset

/-- The set of the trees that were met after the snapshots were verified one after the other. -/
def verifiedAfter (env : Env) (codec : TreeCodec) (b : Backend) (mi : MasterIndex)
    (snapshotIds : List ID) : Finset ID :=
  snapshotIds.foldl
    (fun verifiedTrees id =>
      (verifySnapshotRefs env codec b mi b.existingPacks id verifiedTrees).2) ∅

/-! ## What is to be verified -/

section Spec

variable (env : Env) (codec : TreeCodec) (b : Backend) (mi : MasterIndex)

/-- The blob is in the index and in a pack that exists. -/
def Backend.Present (id : ID) : Prop :=
  ∃ l, mi.get env.toIndexEnv id = some l ∧ l.packId ∈ b.existingPacks

/-- A tree has a subtree. -/
def SubtreeOf (t t' : ID) : Prop :=
  ∃ node, NodeOf codec (Mark.contents env b mi) t node ∧ node.tree = some t'

/-- The tree can be loaded and what its nodes refer to is present. -/
def Backend.TreeIntact (t : ID) : Prop :=
  ∃ nodes, loadTree env codec b mi t = some nodes ∧
    ∀ node ∈ nodes, ∀ id ∈ node.referencedIds, b.Present env mi id

/-- All blobs that can be reached from the root tree of the snapshot are in the index and in packs
that exist. What a tree refers to is only known when the tree can be loaded, so this is part of it.
-/
def Backend.SnapshotIntact (snapshotId : ID) : Prop :=
  ∃ snap, b.snapshots.lookup snapshotId = some snap ∧
    (∀ t, TreeOf codec (Mark.contents env b mi) snap.tree t → (loadTree env codec b mi t).isSome) ∧
    ∀ id, Closure codec (Mark.contents env b mi) snap.tree id → b.Present env mi id

/-- The set of trees hides that the snapshot is broken: its root tree is in the index, one of its
trees is not intact, and every tree that is not intact is in the set or only reached through the
set. -/
def Backend.Hidden (verifiedTrees : Finset ID) (snapshotId : ID) : Prop :=
  ∃ snap, b.snapshots.lookup snapshotId = some snap ∧
    (mi.get env.toIndexEnv snap.tree).isSome ∧
    (∃ t, TreeOf codec (Mark.contents env b mi) snap.tree t ∧ ¬ b.TreeIntact env codec mi t) ∧
    ∀ t, Around (SubtreeOf env codec b mi) ↑verifiedTrees snap.tree t → b.TreeIntact env codec mi t

end Spec

section Nodes

variable {env : Env} {codec : TreeCodec} {b : Backend} {mi : MasterIndex}

theorem mem_existingPacks {p : ID} : p ∈ b.existingPacks ↔ ∃ data, b.packs.lookup p = some data := by
  rw [Backend.existingPacks, List.mem_toFinset, ← AList.mem_keys, AList.lookup_isSome.symm,
    Option.isSome_iff_exists]

/-- Every tree that loads is present. -/
theorem Backend.present_of_loadTree {t : ID} {nodes : List Node}
    (h : loadTree env codec b mi t = some nodes) : b.Present env mi t := by
  obtain ⟨bytes, hbytes, -⟩ := Option.bind_eq_some_iff.mp h
  obtain ⟨l, hl, hload⟩ := Option.bind_eq_some_iff.mp hbytes
  obtain ⟨data, hdata, -⟩ := Option.bind_eq_some_iff.mp hload
  exact ⟨l, hl, mem_existingPacks.mpr ⟨data, hdata⟩⟩

/-- The nodes of a tree that loads are those that were loaded. -/
theorem nodeOf_iff_of_loadTree {t : ID} {nodes : List Node}
    (h : loadTree env codec b mi t = some nodes) (node : Node) :
    NodeOf codec (Mark.contents env b mi) t node ↔ node ∈ nodes := by
  obtain ⟨bytes, hbytes, hnodes⟩ := Option.bind_eq_some_iff.mp h
  have hcontents : Mark.contents env b mi t = bytes := by
    rw [Mark.contents, hbytes, Option.getD_some]
  rw [NodeOf, hcontents, hnodes]
  simp

theorem subtreeOf_iff_of_loadTree {t t' : ID} {nodes : List Node}
    (h : loadTree env codec b mi t = some nodes) :
    SubtreeOf env codec b mi t t' ↔ t' ∈ nodes.filterMap Node.tree := by
  rw [List.mem_filterMap, SubtreeOf]
  exact exists_congr fun node => and_congr_left fun _ => nodeOf_iff_of_loadTree h node

theorem treeOf_iff_reachable {root t : ID} :
    TreeOf codec (Mark.contents env b mi) root t ↔
      Relation.ReflTransGen (SubtreeOf env codec b mi) root t := by
  constructor
  · intro h
    induction h with
    | root => exact .refl
    | sub _ hnode htree ih => exact .tail ih ⟨_, hnode, htree⟩
  · intro h
    induction h with
    | refl => exact .root
    | tail _ hsub ih =>
      obtain ⟨node, hnode, htree⟩ := hsub
      exact .sub ih hnode htree

/-- **A snapshot is intact if and only if all its trees are.** -/
theorem Backend.snapshotIntact_iff {snapshotId : ID} {snap : Snapshot}
    (hsnap : b.snapshots.lookup snapshotId = some snap) :
    b.SnapshotIntact env codec mi snapshotId ↔
      ∀ t, TreeOf codec (Mark.contents env b mi) snap.tree t → b.TreeIntact env codec mi t := by
  constructor
  · rintro ⟨snap', hsnap', hloads, hpresent⟩ t ht
    rw [hsnap] at hsnap'
    cases hsnap'
    obtain ⟨nodes, hnodes⟩ := Option.isSome_iff_exists.mp (hloads t ht)
    refine ⟨nodes, hnodes, fun node hmem id hid => hpresent id ?_⟩
    have hnode := (nodeOf_iff_of_loadTree hnodes node).mpr hmem
    rcases List.mem_append.mp hid with hblob | htree
    · cases hblobs : node.blobs with
      | none => simp [hblobs] at hblob
      | some ids => exact .blob ht hnode hblobs (by simpa [hblobs] using hblob)
    · exact .tree (.sub ht hnode (by simpa using htree))
  · intro h
    refine ⟨snap, hsnap, fun t ht => ?_, fun id hid => ?_⟩
    · obtain ⟨nodes, hnodes, -⟩ := h t ht
      rw [hnodes, Option.isSome_some]
    · cases hid with
      | tree ht =>
        obtain ⟨nodes, hnodes, -⟩ := h id ht
        exact Backend.present_of_loadTree hnodes
      | @blob t _ node ids ht hnode hblobs hmem =>
        obtain ⟨nodes, hnodes, hrefs⟩ := h t ht
        refine hrefs node ((nodeOf_iff_of_loadTree hnodes node).mp hnode) id ?_
        exact List.mem_append_left _ (by simpa [hblobs] using hmem)

end Nodes

/-! ## What a call checks -/

section Walk

variable {env : Env} {codec : TreeCodec} {b : Backend} {mi : MasterIndex}

theorem isOk_verifyReference (id : ID) (n : Nat) :
    verifyReference env.toIndexEnv mi b.existingPacks n id = .ok (n + 1) ∧ b.Present env mi id ∨
      (∃ e, verifyReference env.toIndexEnv mi b.existingPacks n id = .error e) ∧
        ¬ b.Present env mi id := by
  unfold verifyReference Backend.Present
  cases hget : mi.get env.toIndexEnv id with
  | none => simp
  | some l => by_cases hpack : l.packId ∈ b.existingPacks <;> simp [hpack]

theorem isOk_foldlM_verifyReference (ids : List ID) (n : Nat) :
    (∃ n', ids.foldlM (verifyReference env.toIndexEnv mi b.existingPacks) n = .ok n') ↔
      ∀ id ∈ ids, b.Present env mi id := by
  induction ids generalizing n with
  | nil => simp [pure, Except.pure]
  | cons id ids ih =>
    rw [List.foldlM_cons, List.forall_mem_cons]
    rcases @isOk_verifyReference env b mi id n with
      ⟨hok, hpresent⟩ | ⟨⟨e, herr⟩, habsent⟩
    · rw [hok, and_iff_right hpresent]
      exact ih (n + 1)
    · simp [herr, habsent, bind, Except.bind]

/-- The loop over the nodes succeeds if what they refer to is present. It has then pushed the
subtrees. -/
theorem foldlM_verifyNode (nodes : List Node) (s : List ID × Nat) :
    ((∃ s', nodes.foldlM (verifyNode env.toIndexEnv mi b.existingPacks) s = .ok s') ↔
      ∀ node ∈ nodes, ∀ id ∈ node.referencedIds, b.Present env mi id) ∧
    ∀ s', nodes.foldlM (verifyNode env.toIndexEnv mi b.existingPacks) s = .ok s' →
      ∀ t, t ∈ s'.1 ↔ t ∈ nodes.filterMap Node.tree ∨ t ∈ s.1 := by
  induction nodes generalizing s with
  | nil => simp [pure, Except.pure]
  | cons node nodes ih =>
    have hrefs := @isOk_foldlM_verifyReference env b mi node.referencedIds s.2
    rw [List.foldlM_cons, List.forall_mem_cons, ← hrefs]
    unfold verifyNode at *
    cases hcheck : node.referencedIds.foldlM
      (verifyReference env.toIndexEnv mi b.existingPacks) s.2 with
    | error e => simp [bind, Except.bind]
    | ok n =>
      obtain ⟨hok, hstack⟩ := ih (node.tree.toList ++ s.1, n)
      refine ⟨by simpa [bind, Except.bind, pure, Except.pure] using hok, fun s' hs' t => ?_⟩
      rw [hstack s' (by simpa [bind, Except.bind, pure, Except.pure] using hs') t]
      cases htree : node.tree with
      | none => simp [htree]
      | some t' =>
        simp only [List.filterMap_cons, htree, Option.toList_some, List.cons_append,
          List.nil_append, List.mem_cons]
        tauto

/-- **The walk checks the trees that it reaches around the set.** -/
theorem isOk_verifyTrees (stack : List ID) (V : Finset ID) (n : Nat) :
    (verifyTrees env codec b mi b.existingPacks stack V n).1.isOk ↔
      ∀ s ∈ stack, ∀ t, Around (SubtreeOf env codec b mi) ↑V s t → b.TreeIntact env codec mi t := by
  fun_induction verifyTrees env codec b mi b.existingPacks stack V n with
  | case1 V n => simp [Except.isOk, Except.toBool]
  | case2 V n t rest hmem ih => rw [ih, forall_around_skip (Finset.mem_coe.mpr hmem)]
  | case3 V n t rest hmem hload =>
    refine iff_of_false (by simp [Except.isOk, Except.toBool]) fun h => ?_
    obtain ⟨nodes, hnodes, -⟩ := h t List.mem_cons_self t (.start (by simpa using hmem))
    rw [hload] at hnodes
    cases hnodes
  | case4 V n t rest hmem nodes hload e hcheck =>
    refine iff_of_false (by simp [Except.isOk, Except.toBool]) fun h => ?_
    obtain ⟨nodes', hnodes, hrefs⟩ := h t List.mem_cons_self t (.start (by simpa using hmem))
    rw [hload] at hnodes
    cases hnodes
    obtain ⟨s', hs'⟩ := (foldlM_verifyNode nodes (rest, n)).1.mpr hrefs
    rw [hcheck] at hs'
    cases hs'
  | case5 V n t rest hmem nodes hload stack' n' hcheck ih =>
    obtain ⟨hok, hstack⟩ := @foldlM_verifyNode env b mi nodes (rest, n)
    have hintact : b.TreeIntact env codec mi t := ⟨nodes, hload, hok.mp ⟨_, hcheck⟩⟩
    have hstack' : ∀ s, s ∈ stack' ↔ SubtreeOf env codec b mi t s ∨ s ∈ rest := by
      intro s
      rw [subtreeOf_iff_of_loadTree hload]
      exact hstack _ hcheck s
    rw [ih, forall_around_visit (by simpa using hmem) hstack', Finset.coe_insert]
    exact (and_iff_right hintact).symm

/-- All trees of the set are intact, and their subtrees are in the set or still on the stack. -/
def Walked (env : Env) (codec : TreeCodec) (b : Backend) (mi : MasterIndex) (stack : List ID)
    (V : Finset ID) : Prop :=
  ∀ t ∈ V, b.TreeIntact env codec mi t ∧
    ∀ t', SubtreeOf env codec b mi t t' → t' ∈ V ∨ t' ∈ stack

/-- A walk that succeeds leaves a set of intact trees with all their subtrees. -/
theorem walked_verifyTrees (stack : List ID) (V : Finset ID) (n : Nat)
    (hV : Walked env codec b mi stack V)
    (hok : (verifyTrees env codec b mi b.existingPacks stack V n).1.isOk) :
    Walked env codec b mi [] (verifyTrees env codec b mi b.existingPacks stack V n).2 := by
  fun_induction verifyTrees env codec b mi b.existingPacks stack V n with
  | case1 V n => exact hV
  | case2 V n t rest hmem ih =>
    refine ih (fun v hv => ⟨(hV v hv).1, fun t' ht' => ?_⟩) hok
    rcases (hV v hv).2 t' ht' with hin | hstack
    · exact Or.inl hin
    · rcases List.mem_cons.mp hstack with rfl | hrest
      · exact Or.inl hmem
      · exact Or.inr hrest
  | case3 V n t rest hmem hload => simp [Except.isOk, Except.toBool] at hok
  | case4 V n t rest hmem nodes hload e hcheck => simp [Except.isOk, Except.toBool] at hok
  | case5 V n t rest hmem nodes hload stack' n' hcheck ih =>
    obtain ⟨hrefs, hstack⟩ := @foldlM_verifyNode env b mi nodes (rest, n)
    refine ih (fun v hv => ?_) hok
    rcases Finset.mem_insert.mp hv with rfl | hold
    · refine ⟨⟨nodes, hload, hrefs.mp ⟨_, hcheck⟩⟩, fun t' ht' => Or.inr ?_⟩
      exact (hstack _ hcheck t').mpr (Or.inl ((subtreeOf_iff_of_loadTree hload).mp ht'))
    · refine ⟨(hV v hold).1, fun t' ht' => ?_⟩
      rcases (hV v hold).2 t' ht' with hin | hmem'
      · exact Or.inl (Finset.mem_insert_of_mem hin)
      · rcases List.mem_cons.mp hmem' with rfl | hrest
        · exact Or.inl (Finset.mem_insert_self _ _)
        · exact Or.inr ((hstack _ hcheck t').mpr (Or.inr hrest))

end Walk

/-! ## The calls for several snapshots -/

section Calls

variable {env : Env} {codec : TreeCodec} {b : Backend} {mi : MasterIndex}

/-- A call succeeds if the root tree of the snapshot is in the index and the trees that are reached
around the set are intact. -/
theorem isOk_verifySnapshotRefs (snapshotId : ID) (V : Finset ID) :
    (verifySnapshotRefs env codec b mi b.existingPacks snapshotId V).1.isOk ↔
      ∃ snap, b.snapshots.lookup snapshotId = some snap ∧
        (mi.get env.toIndexEnv snap.tree).isSome ∧
        ∀ t, Around (SubtreeOf env codec b mi) ↑V snap.tree t → b.TreeIntact env codec mi t := by
  unfold verifySnapshotRefs
  cases hsnap : b.snapshots.lookup snapshotId with
  | none => simp [Except.isOk, Except.toBool]
  | some snap =>
    cases hget : mi.get env.toIndexEnv snap.tree with
    | none => simp [hget, Except.isOk, Except.toBool]
    | some l => simp [hget, isOk_verifyTrees]

/-- An intact snapshot passes, whatever the set. -/
theorem Backend.SnapshotIntact.isOk {snapshotId : ID} (h : b.SnapshotIntact env codec mi snapshotId)
    (V : Finset ID) : (verifySnapshotRefs env codec b mi b.existingPacks snapshotId V).1.isOk := by
  obtain ⟨snap, hsnap, hloads, hpresent⟩ := h
  have hintact := (Backend.snapshotIntact_iff hsnap).mp ⟨snap, hsnap, hloads, hpresent⟩
  obtain ⟨l, hl, -⟩ := hpresent snap.tree (.tree .root)
  refine (isOk_verifySnapshotRefs snapshotId V).mpr ⟨snap, hsnap, by rw [hl]; rfl, fun t ht => ?_⟩
  exact hintact t (treeOf_iff_reachable.mpr ht.reachable)

/-- A call that succeeds keeps a set of intact trees with all their subtrees. -/
theorem walked_verifySnapshotRefs {snapshotId : ID} {V : Finset ID}
    (hV : Walked env codec b mi [] V)
    (hok : (verifySnapshotRefs env codec b mi b.existingPacks snapshotId V).1.isOk) :
    Walked env codec b mi [] (verifySnapshotRefs env codec b mi b.existingPacks snapshotId V).2 := by
  unfold verifySnapshotRefs at hok ⊢
  split at hok
  · simp [Except.isOk, Except.toBool] at hok
  · split at hok
    · simp [Except.isOk, Except.toBool] at hok
    · rename_i hget
      rw [if_neg hget]
      refine walked_verifyTrees _ V 0 (fun t ht => ⟨(hV t ht).1, fun t' ht' => ?_⟩) hok
      exact Or.inl (((hV t ht).2 t' ht').resolve_right List.not_mem_nil)

/-- When all earlier snapshots are intact, the set has intact trees only, with all their subtrees.
-/
theorem walked_verifiedAfter (earlier : List ID)
    (h : ∀ id ∈ earlier, b.SnapshotIntact env codec mi id) :
    Walked env codec b mi [] (verifiedAfter env codec b mi earlier) := by
  unfold verifiedAfter
  induction earlier using List.reverseRecOn with
  | nil => exact fun t ht => absurd ht (Finset.notMem_empty t)
  | append_singleton earlier id ih =>
    rw [List.foldl_append]
    have hids := List.forall_mem_append.mp h
    exact walked_verifySnapshotRefs (ih hids.1) ((hids.2 id (List.mem_singleton_self id)).isOk _)

/-- Such a set hides nothing. -/
theorem Walked.not_hidden {V : Finset ID} (hV : Walked env codec b mi [] V) (snapshotId : ID) :
    ¬ b.Hidden env codec mi V snapshotId := by
  rintro ⟨snap, -, -, ⟨t, ht, hbroken⟩, haround⟩
  have hclosed : ∀ v ∈ (↑V : Set ID), ∀ w, SubtreeOf env codec b mi v w → w ∈ (↑V : Set ID) :=
    fun v hv w hw => ((hV v hv).2 w hw).resolve_right List.not_mem_nil
  rcases around_or_mem_of_closed hclosed (treeOf_iff_reachable.mp ht) with hpath | hmem
  · exact hbroken (haround t hpath)
  · exact hbroken (hV t hmem).1

/-- **A call is right if and only if the set hides no broken tree.** Whatever snapshots were
verified before and with whatever outcome, the call returns `Ok` exactly for an intact snapshot
unless the trees that were met before hide that it is broken, and they do not when the earlier
snapshots are intact. -/
theorem verifySnapshotRefs_exact_iff (env : Env) (codec : TreeCodec) (b : Backend) (mi : MasterIndex)
    (earlier : List ID) (snapshotId : ID) :
    (((verifySnapshotRefs env codec b mi b.existingPacks snapshotId
          (verifiedAfter env codec b mi earlier)).1.isOk ↔
        b.SnapshotIntact env codec mi snapshotId) ↔
      ¬ b.Hidden env codec mi (verifiedAfter env codec b mi earlier) snapshotId) ∧
    ((∀ id ∈ earlier, b.SnapshotIntact env codec mi id) →
      ¬ b.Hidden env codec mi (verifiedAfter env codec b mi earlier) snapshotId) := by
  refine ⟨⟨fun hexact => ?_, fun hhidden => ⟨fun hok => ?_, fun h => h.isOk _⟩⟩,
    fun h => (walked_verifiedAfter earlier h).not_hidden snapshotId⟩
  · rintro ⟨snap, hsnap, hroot, ⟨t, ht, hbroken⟩, haround⟩
    have hok := (isOk_verifySnapshotRefs snapshotId _).mpr ⟨snap, hsnap, hroot, haround⟩
    exact hbroken ((Backend.snapshotIntact_iff hsnap).mp (hexact.mp hok) t ht)
  · obtain ⟨snap, hsnap, hroot, haround⟩ := (isOk_verifySnapshotRefs snapshotId _).mp hok
    refine (Backend.snapshotIntact_iff hsnap).mpr fun t ht => ?_
    by_contra hbroken
    exact hhidden ⟨snap, hsnap, hroot, ⟨t, ht, hbroken⟩, haround⟩

end Calls

section Sample

open Gc (gcNode gcCodec gcIndex)

/-- A repository with two snapshots of one tree, whose file has a blob that no index file lists. -/
def unlistedBackend : Backend :=
  ⟨AList.insert 20 [1, 1] ∅, AList.insert 31 ⟨[⟨20, [⟨1, .tree, 0, 2, 1⟩]⟩]⟩ ∅,
    AList.insert 50 ⟨1⟩ (AList.insert 51 ⟨1⟩ ∅), ∅⟩

theorem verifyTrees_unlisted :
    verifyTrees sampleEnv gcCodec unlistedBackend (gcIndex unlistedBackend)
      unlistedBackend.existingPacks [1] ∅ 0 = (.error (.blobMissing 5), {1}) := by
  have hload : loadTree sampleEnv gcCodec unlistedBackend (gcIndex unlistedBackend) 1 =
      some [gcNode] := by decide
  have hcheck : [gcNode].foldlM (verifyNode sampleEnv.toIndexEnv (gcIndex unlistedBackend)
      unlistedBackend.existingPacks) ([], 0) = .error (.blobMissing 5) := by rfl
  rw [verifyTrees, dif_neg (Finset.notMem_empty _), hload]
  simp only [hcheck]
  rfl

/-- The first of the two snapshots is reported as broken, and then the second one passes. -/
theorem verified_trees_hide_missing_blob :
    (verifySnapshotRefs sampleEnv gcCodec unlistedBackend (gcIndex unlistedBackend)
      unlistedBackend.existingPacks 50 ∅).1 = .error (.blobMissing 5) ∧
    (verifySnapshotRefs sampleEnv gcCodec unlistedBackend (gcIndex unlistedBackend)
      unlistedBackend.existingPacks 51
      (verifiedAfter sampleEnv gcCodec unlistedBackend (gcIndex unlistedBackend) [50])).1 = .ok 0 ∧
    ¬ unlistedBackend.SnapshotIntact sampleEnv gcCodec (gcIndex unlistedBackend) 51 := by
  have hfirst : verifySnapshotRefs sampleEnv gcCodec unlistedBackend (gcIndex unlistedBackend)
      unlistedBackend.existingPacks 50 ∅ = (.error (.blobMissing 5), {1}) := verifyTrees_unlisted
  have hafter : verifiedAfter sampleEnv gcCodec unlistedBackend (gcIndex unlistedBackend) [50] =
      {1} := congrArg Prod.snd hfirst
  refine ⟨congrArg Prod.fst hfirst, ?_, ?_⟩
  · have hsecond : verifySnapshotRefs sampleEnv gcCodec unlistedBackend (gcIndex unlistedBackend)
        unlistedBackend.existingPacks 51 {1} =
          verifyTrees sampleEnv gcCodec unlistedBackend (gcIndex unlistedBackend)
            unlistedBackend.existingPacks [1] {1} 0 := rfl
    rw [hafter, hsecond, verifyTrees, dif_pos (Finset.mem_singleton_self _), verifyTrees]
  · rintro ⟨snap, hsnap, -, hpresent⟩
    cases hsnap
    have hnode : NodeOf gcCodec (Mark.contents sampleEnv unlistedBackend (gcIndex unlistedBackend)) 1
        gcNode := ⟨[gcNode], by decide, List.mem_singleton_self _⟩
    obtain ⟨l, hl, -⟩ := hpresent 5 (.blob .root hnode rfl (List.mem_singleton_self _))
    have hnone : (gcIndex unlistedBackend).get sampleEnv.toIndexEnv 5 = none := by decide
    rw [hnone] at hl
    cases hl

end Sample

end Mapache
