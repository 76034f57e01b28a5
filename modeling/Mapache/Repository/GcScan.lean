import Mathlib.Data.Finset.Card
import Mathlib.Data.Fintype.Card
import Mathlib.Data.Prod.Lex
import Mapache.Fs.Tree
import Mapache.Lib.Run
import Mapache.Repository.Backend

/-!
# The scan of the garbage collector

`gc::scan`: the mark phase, which collects the blobs and packs that the snapshots refer to, and the
classification of the packs. The mark phase walks the trees of up to four snapshots at a time with
up to eight loads each; the tasks share the set of trees that were seen and the two results. The
stacks of the tasks are one list here, from which any tree may be taken next, so every schedule of
the tasks is a run of `Mark.Step`.

The comparisons of byte ratios are left open (`GcLimits`): nothing below depends on which packs
count as small or as dirty.

`Mark.exact` says what a finished mark phase has collected, and with it the plan is described by the
repository alone: `Backend.Unused` and `Backend.Obsolete` say which packs the plan deletes.
-/

set_option autoImplicit false

namespace Mapache

open Lib

/-- The state of the mark phase. -/
structure Mark where
  /-- The trees on the stacks of the tasks. -/
  stack : List ID
  /-- The trees that are being loaded. -/
  loading : List ID
  verifiedTrees : Finset ID
  referencedBlobs : Finset ID
  referencedPacks : Finset ID

namespace Mark

/-- The mark phase at its start: every task has the root tree of its snapshot. -/
def start (b : Backend) : Mark where
  stack := (Table.toList b.snapshots).map fun e => e.2.tree
  loading := []
  verifiedTrees := ∅
  referencedBlobs := ∅
  referencedPacks := ∅

/-- Note a blob and the pack that the index finds it in. -/
def reference (env : IndexEnv) (mi : MasterIndex) (m : Mark) (id : ID) : Mark :=
  { m with
    referencedBlobs := insert id m.referencedBlobs
    referencedPacks := match mi.get env id with
      | some l => insert l.packId m.referencedPacks
      | none => m.referencedPacks }

/-- The body of the loop over the nodes of a tree. -/
def visitNode (env : IndexEnv) (mi : MasterIndex) (m : Mark) (node : Node) : Mark :=
  (node.blobs.getD []).foldl (reference env mi) { m with stack := m.stack ++ node.tree.toList }

/-- A step of the mark phase. A tree that cannot be loaded ends it with an error. -/
inductive Step (env : Env) (codec : TreeCodec) (b : Backend) (mi : MasterIndex) :
    Mark → Unit → Mark → Prop where
  | skip {m : Mark} {t : ID} : t ∈ m.stack → t ∈ m.verifiedTrees →
      Step env codec b mi m () { m with stack := m.stack.erase t }
  | visit {m : Mark} {t : ID} : t ∈ m.stack → t ∉ m.verifiedTrees →
      Step env codec b mi m ()
        (reference env.toIndexEnv mi
          { m with
            stack := m.stack.erase t
            loading := t :: m.loading
            verifiedTrees := insert t m.verifiedTrees } t)
  | load {m : Mark} {t : ID} {bytes : Bytes} {nodes : List Node} : t ∈ m.loading →
      loadBlob env b mi t = some bytes → codec.fromSlice bytes = some nodes →
      Step env codec b mi m ()
        (nodes.foldl (visitNode env.toIndexEnv mi) { m with loading := m.loading.erase t })

/-- All tasks have ended. -/
def Done (m : Mark) : Prop := m.stack = [] ∧ m.loading = []

end Mark

/-! ## The plan -/

/-- The comparisons of byte ratios in `scan`. -/
structure GcLimits where
  /-- The garbage of the size exceeds the tolerance. -/
  exceedsTolerance : Nat → Bool
  /-- A pack with blobs of the size is below the minimum pack size. -/
  isSmall : Nat → Bool

/-- What is to be cleaned. -/
structure Plan where
  totalPacks : Nat
  referencedBlobs : Finset ID
  referencedPacks : Finset ID
  obsoletePacks : Finset ID
  smallPacks : Finset ID
  toleratedPacks : Finset ID
  unusedPacks : Finset ID
  indexIds : Finset ID

/-- The bytes of the entries, by pack. -/
def sumByPack (es : List (ID × BlobLocator)) : Table ID Nat :=
  es.foldl (fun t e => t.insert e.2.packId ((t.lookup e.2.packId).getD 0 + e.2.length)) ∅

/-- The packs whose sum passes the test. -/
def packsWhere (test : Nat → Bool) (t : Table ID Nat) : Finset ID :=
  (((Table.toList t).filter fun e => test e.2).map Prod.fst).toFinset

/-- The classification of the packs in `scan`. -/
def Mark.plan (limits : GcLimits) (b : Backend) (mi : MasterIndex) (m : Mark) : Plan :=
  let listed := b.packs.keys.toFinset
  let keptPackSize := sumByPack mi.entries
  let packGarbage := sumByPack (mi.entries.filter fun e => e.1 ∉ m.referencedBlobs)
  { totalPacks := (listed ∩ m.referencedPacks).card
    referencedBlobs := m.referencedBlobs
    referencedPacks := m.referencedPacks
    obsoletePacks := packsWhere limits.exceedsTolerance packGarbage
    smallPacks := packsWhere limits.isSmall keptPackSize
    toleratedPacks := packsWhere (fun size => !limits.exceedsTolerance size) packGarbage
    unusedPacks := listed \ m.referencedPacks
    indexIds := mi.ids }

/-- `scan` returns the plan. -/
def Scan (env : Env) (codec : TreeCodec) (limits : GcLimits) (b : Backend) (mi : MasterIndex)
    (plan : Plan) : Prop :=
  ∃ ls m, Run (Mark.Step env codec b mi) (Mark.start b) ls m ∧ m.Done ∧ plan = m.plan limits b mi

/-- The packs that `execute` repacks and deletes: a single small pack is left alone. -/
def Plan.packsToRepack (plan : Plan) : Finset ID :=
  if 1 < plan.smallPacks.card then plan.obsoletePacks ∪ plan.smallPacks else plan.obsoletePacks

/-! ## The mark phase is exact -/

/-- The blob is in the closure of a snapshot. -/
def Backend.Live (codec : TreeCodec) (plain : ID → Bytes) (b : Backend) (id : ID) : Prop :=
  ∃ sid snap, b.snapshots.lookup sid = some snap ∧ Closure codec plain snap.tree id

namespace Mark

section Fold

variable {env : IndexEnv} {mi : MasterIndex}

theorem foldl_reference_frame (env : IndexEnv) (mi : MasterIndex) (ids : List ID) (m : Mark) :
    (ids.foldl (reference env mi) m).stack = m.stack ∧
      (ids.foldl (reference env mi) m).loading = m.loading ∧
      (ids.foldl (reference env mi) m).verifiedTrees = m.verifiedTrees := by
  induction ids generalizing m with
  | nil => exact ⟨rfl, rfl, rfl⟩
  | cons id ids ih => exact ih (reference env mi m id)

theorem mem_blobs_foldl_reference {ids : List ID} {m : Mark} {id : ID} :
    id ∈ (ids.foldl (reference env mi) m).referencedBlobs ↔ id ∈ m.referencedBlobs ∨ id ∈ ids := by
  induction ids generalizing m with
  | nil => simp
  | cons id' ids ih =>
    rw [List.foldl_cons, ih, reference, Finset.mem_insert, List.mem_cons]
    tauto

theorem mem_packs_reference {m : Mark} {id p : ID} :
    p ∈ (reference env mi m id).referencedPacks ↔
      p ∈ m.referencedPacks ∨ ∃ l, mi.get env id = some l ∧ l.packId = p := by
  unfold reference
  cases hget : mi.get env id with
  | none => simp
  | some l =>
    simp only [Finset.mem_insert, Option.some.injEq, exists_eq_left']
    tauto

theorem mem_packs_foldl_reference {ids : List ID} {m : Mark} {p : ID} :
    p ∈ (ids.foldl (reference env mi) m).referencedPacks ↔
      p ∈ m.referencedPacks ∨ ∃ id ∈ ids, ∃ l, mi.get env id = some l ∧ l.packId = p := by
  induction ids generalizing m with
  | nil => simp
  | cons id ids ih =>
    rw [List.foldl_cons, ih, mem_packs_reference]
    simp only [List.mem_cons, exists_eq_or_imp, or_assoc]

/-- The blobs of the nodes of a tree. -/
def blobsOf (nodes : List Node) : List ID := nodes.flatMap fun node => node.blobs.getD []

/-- The loop over the nodes notes their blobs and pushes their subtrees. -/
theorem foldl_visitNode (nodes : List Node) (m : Mark) :
    nodes.foldl (visitNode env mi) m = (blobsOf nodes).foldl (reference env mi)
      { m with stack := m.stack ++ nodes.filterMap Node.tree } := by
  -- noting a blob does not look at the stack
  have hcomm : ∀ (ids : List ID) (m : Mark) (ts : List ID),
      ids.foldl (reference env mi) { m with stack := m.stack ++ ts } =
        { ids.foldl (reference env mi) m with
          stack := (ids.foldl (reference env mi) m).stack ++ ts } := by
    intro ids
    induction ids with
    | nil => exact fun _ _ => rfl
    | cons id ids ih => exact fun m ts => ih (reference env mi m id) ts
  induction nodes generalizing m with
  | nil => simp [blobsOf]
  | cons node nodes ih =>
    rw [List.foldl_cons, ih, visitNode, ← hcomm, ← List.foldl_append]
    have htrees : (node :: nodes).filterMap Node.tree =
        node.tree.toList ++ nodes.filterMap Node.tree := by
      cases htree : node.tree <;> simp [htree]
    simp only [htrees, List.append_assoc]
    rfl

end Fold

section Exact

variable {env : Env} {codec : TreeCodec} {plain : ID → Bytes} {b : Backend} {mi : MasterIndex}
  {m m' : Mark}

/-- The tree is one of a snapshot. -/
def LiveTree (codec : TreeCodec) (plain : ID → Bytes) (b : Backend) (t : ID) : Prop :=
  ∃ sid snap, b.snapshots.lookup sid = some snap ∧ TreeOf codec plain snap.tree t

/-- The invariant of the mark phase. What is collected is live; a tree that was seen is still being
loaded, or its nodes are accounted for; and the packs are those of the blobs. -/
structure Inv (env : Env) (codec : TreeCodec) (plain : ID → Bytes) (b : Backend) (mi : MasterIndex)
    (m : Mark) : Prop where
  stack : ∀ t ∈ m.stack, LiveTree codec plain b t
  loading : ∀ t ∈ m.loading, t ∈ m.verifiedTrees
  verified : ∀ t ∈ m.verifiedTrees, LiveTree codec plain b t ∧ t ∈ m.referencedBlobs
  blobs : ∀ id ∈ m.referencedBlobs, b.Live codec plain id
  roots : ∀ sid snap, b.snapshots.lookup sid = some snap →
    snap.tree ∈ m.stack ∨ snap.tree ∈ m.verifiedTrees
  nodes : ∀ t ∈ m.verifiedTrees, t ∈ m.loading ∨ ∀ node, NodeOf codec plain t node →
    (∀ sub, node.tree = some sub → sub ∈ m.stack ∨ sub ∈ m.verifiedTrees) ∧
      ∀ ids, node.blobs = some ids → ∀ id ∈ ids, id ∈ m.referencedBlobs
  packs : ∀ p, p ∈ m.referencedPacks ↔
    ∃ id ∈ m.referencedBlobs, ∃ l, mi.get env.toIndexEnv id = some l ∧ l.packId = p

theorem Inv.start : (Mark.start b).Inv env codec plain b mi where
  stack := by
    intro t ht
    obtain ⟨⟨sid, snap⟩, hmem, rfl⟩ := List.mem_map.mp ht
    exact ⟨sid, snap, Table.mem_toList.mp hmem, .root⟩
  loading := fun _ ht => (by cases ht)
  verified := fun _ ht => (by cases ht)
  blobs := fun _ hid => (by cases hid)
  roots := fun sid snap hsnap =>
    Or.inl (List.mem_map.mpr ⟨(sid, snap), Table.mem_toList.mpr hsnap, rfl⟩)
  nodes := fun _ ht => (by cases ht)
  packs := by
    intro p
    simp [Mark.start]

/-- A tree that was taken off the stack is seen afterwards. -/
theorem mem_erase_or {t t' : ID} {stack : List ID} {seen : Finset ID} (ht : t ∈ seen)
    (h : t' ∈ stack ∨ t' ∈ seen) : t' ∈ stack.erase t ∨ t' ∈ seen := by
  by_cases heq : t' = t
  · exact Or.inr (heq ▸ ht)
  · exact h.imp_left (List.mem_erase_of_ne heq).mpr

theorem Inv.skip (h : m.Inv env codec plain b mi) {t : ID} (ht : t ∈ m.verifiedTrees) :
    Inv env codec plain b mi { m with stack := m.stack.erase t } where
  stack := fun t' ht' => h.stack t' (List.mem_of_mem_erase ht')
  loading := h.loading
  verified := h.verified
  blobs := h.blobs
  roots := fun sid snap hsnap => mem_erase_or ht (h.roots sid snap hsnap)
  nodes := fun t' ht' => (h.nodes t' ht').imp_right fun hnodes node hnode =>
    ⟨fun sub hsub => mem_erase_or ht ((hnodes node hnode).1 sub hsub), (hnodes node hnode).2⟩
  packs := h.packs

theorem Inv.visit (h : m.Inv env codec plain b mi) {t : ID} (ht : t ∈ m.stack) :
    Inv env codec plain b mi
      (reference env.toIndexEnv mi
        { m with
          stack := m.stack.erase t
          loading := t :: m.loading
          verifiedTrees := insert t m.verifiedTrees } t) := by
  have hlive := h.stack t ht
  have hseen : ∀ {t'}, t' ∈ m.stack ∨ t' ∈ m.verifiedTrees →
      t' ∈ m.stack.erase t ∨ t' ∈ insert t m.verifiedTrees := fun ht' =>
    mem_erase_or (Finset.mem_insert_self _ _) (ht'.imp_right (Finset.mem_insert_of_mem ·))
  refine ⟨fun t' ht' => h.stack t' (List.mem_of_mem_erase ht'), ?_, ?_, ?_, ?_, ?_, ?_⟩
  · intro t' ht'
    rcases List.mem_cons.mp ht' with rfl | hold
    · exact Finset.mem_insert_self _ _
    · exact Finset.mem_insert_of_mem (h.loading t' hold)
  · intro t' ht'
    rcases Finset.mem_insert.mp ht' with rfl | hold
    · exact ⟨hlive, Finset.mem_insert_self _ _⟩
    · exact ⟨(h.verified t' hold).1, Finset.mem_insert_of_mem (h.verified t' hold).2⟩
  · intro id hid
    rcases Finset.mem_insert.mp hid with rfl | hold
    · obtain ⟨sid, snap, hsnap, htree⟩ := hlive
      exact ⟨sid, snap, hsnap, .tree htree⟩
    · exact h.blobs id hold
  · exact fun sid snap hsnap => hseen (h.roots sid snap hsnap)
  · intro t' ht'
    rcases Finset.mem_insert.mp ht' with rfl | hold
    · exact Or.inl List.mem_cons_self
    · refine (h.nodes t' hold).imp (List.mem_cons_of_mem _) fun hnodes node hnode => ⟨?_, ?_⟩
      · exact fun sub hsub => hseen ((hnodes node hnode).1 sub hsub)
      · exact fun ids hids id hid => Finset.mem_insert_of_mem ((hnodes node hnode).2 ids hids id hid)
  · intro p
    rw [mem_packs_reference]
    simp only [reference, h.packs p, Finset.mem_insert, exists_eq_or_imp]
    exact or_comm

theorem mem_blobsOf {nodes : List Node} {id : ID} :
    id ∈ blobsOf nodes ↔ ∃ node ∈ nodes, ∃ ids, node.blobs = some ids ∧ id ∈ ids := by
  rw [blobsOf, List.mem_flatMap]
  constructor
  · rintro ⟨node, hnode, hid⟩
    cases hblobs : node.blobs with
    | none =>
      rw [hblobs] at hid
      cases hid
    | some ids =>
      rw [hblobs] at hid
      exact ⟨node, hnode, ids, hblobs, hid⟩
  · rintro ⟨node, hnode, ids, hblobs, hid⟩
    refine ⟨node, hnode, ?_⟩
    rw [hblobs]
    exact hid

theorem Inv.load (h : m.Inv env codec plain b mi) {t : ID} {nodes : List Node} (ht : t ∈ m.loading)
    (hnodes : codec.fromSlice (plain t) = some nodes) :
    Inv env codec plain b mi
      (nodes.foldl (visitNode env.toIndexEnv mi) { m with loading := m.loading.erase t }) := by
  rw [foldl_visitNode]
  have hseen := h.loading t ht
  obtain ⟨sid, snap, hsnap, htree⟩ := (h.verified t hseen).1
  obtain ⟨hstack, hloading, hverified⟩ := foldl_reference_frame env.toIndexEnv mi (blobsOf nodes)
    { m with stack := m.stack ++ nodes.filterMap Node.tree, loading := m.loading.erase t }
  -- the nodes of the tree are those that were loaded
  have hmem : ∀ {node}, NodeOf codec plain t node → node ∈ nodes := by
    rintro node ⟨nodes', hnodes', hnode⟩
    rw [hnodes] at hnodes'
    cases hnodes'
    exact hnode
  refine ⟨?_, ?_, ?_, ?_, ?_, ?_, ?_⟩
  · rw [hstack]
    intro t' ht'
    rcases List.mem_append.mp ht' with hold | hnew
    · exact h.stack t' hold
    · obtain ⟨node, hnode, hsub⟩ := List.mem_filterMap.mp hnew
      exact ⟨sid, snap, hsnap, .sub htree ⟨nodes, hnodes, hnode⟩ hsub⟩
  · rw [hloading, hverified]
    exact fun t' ht' => h.loading t' (List.mem_of_mem_erase ht')
  · rw [hverified]
    exact fun t' ht' => ⟨(h.verified t' ht').1,
      mem_blobs_foldl_reference.mpr (Or.inl (h.verified t' ht').2)⟩
  · intro id hid
    rcases mem_blobs_foldl_reference.mp hid with hold | hnew
    · exact h.blobs id hold
    · obtain ⟨node, hnode, ids, hids, hid⟩ := mem_blobsOf.mp hnew
      exact ⟨sid, snap, hsnap, .blob htree ⟨nodes, hnodes, hnode⟩ hids hid⟩
  · rw [hstack, hverified]
    exact fun sid' snap' hsnap' => (h.roots sid' snap' hsnap').imp_left (List.mem_append_left _)
  · rw [hstack, hverified, hloading]
    intro t' ht'
    by_cases heq : t' = t
    · subst heq
      refine Or.inr fun node hnode => ⟨fun sub hsub => ?_, fun ids hids id hid => ?_⟩
      · exact Or.inl (List.mem_append_right _ (List.mem_filterMap.mpr ⟨node, hmem hnode, hsub⟩))
      · exact mem_blobs_foldl_reference.mpr
          (Or.inr (mem_blobsOf.mpr ⟨node, hmem hnode, ids, hids, hid⟩))
    · refine (h.nodes t' ht').imp (List.mem_erase_of_ne heq).mpr fun hold node hnode => ⟨?_, ?_⟩
      · exact fun sub hsub => ((hold node hnode).1 sub hsub).imp_left (List.mem_append_left _)
      · exact fun ids hids id hid =>
          mem_blobs_foldl_reference.mpr (Or.inl ((hold node hnode).2 ids hids id hid))
  · intro p
    simp only [mem_packs_foldl_reference, mem_blobs_foldl_reference, h.packs p, or_and_right,
      exists_or]

theorem Inv.step {u : Unit} (hload : ∀ t bytes, loadBlob env b mi t = some bytes → bytes = plain t)
    (h : m.Inv env codec plain b mi) (hstep : Step env codec b mi m u m') :
    m'.Inv env codec plain b mi := by
  cases hstep with
  | skip ht hseen => exact h.skip hseen
  | visit ht hseen => exact h.visit ht
  | load ht hbytes hnodes => exact h.load ht (hload _ _ hbytes ▸ hnodes)

/-- A tree below one that was seen was seen as well, once all tasks have ended. -/
theorem Inv.verified_of_treeOf (h : m.Inv env codec plain b mi) (hdone : m.Done) {root t : ID}
    (hroot : root ∈ m.verifiedTrees) (ht : TreeOf codec plain root t) : t ∈ m.verifiedTrees := by
  induction ht with
  | root => exact hroot
  | @sub t t' node _ hnode hsub ih =>
    rcases h.nodes t ih with hload | hnodes
    · rw [hdone.2] at hload
      cases hload
    · rcases (hnodes node hnode).1 t' hsub with hstack | hseen
      · rw [hdone.1] at hstack
        cases hstack
      · exact hseen

/-- A finished mark phase has collected exactly the live blobs. -/
theorem Inv.mem_referencedBlobs (h : m.Inv env codec plain b mi) (hdone : m.Done) {id : ID} :
    id ∈ m.referencedBlobs ↔ b.Live codec plain id := by
  refine ⟨h.blobs id, ?_⟩
  rintro ⟨sid, snap, hsnap, hid⟩
  have hroot : snap.tree ∈ m.verifiedTrees := by
    rcases h.roots sid snap hsnap with hstack | hseen
    · rw [hdone.1] at hstack
      cases hstack
    · exact hseen
  cases hid with
  | tree ht => exact (h.verified id (h.verified_of_treeOf hdone hroot ht)).2
  | @blob t _ node ids ht hnode hids hmem =>
    rcases h.nodes t (h.verified_of_treeOf hdone hroot ht) with hload | hnodes
    · rw [hdone.2] at hload
      cases hload
    · exact (hnodes node hnode).2 ids hids id hmem

/-- **The mark phase is exact**: it collects the live blobs and the packs that the index finds them
in. -/
theorem exact {ls : List Unit} (hload : ∀ t bytes, loadBlob env b mi t = some bytes → bytes = plain t)
    (hrun : Run (Step env codec b mi) (start b) ls m) (hdone : m.Done) :
    (∀ id, id ∈ m.referencedBlobs ↔ b.Live codec plain id) ∧
      ∀ p, p ∈ m.referencedPacks ↔
        ∃ id l, b.Live codec plain id ∧ mi.get env.toIndexEnv id = some l ∧ l.packId = p := by
  have hinv : m.Inv env codec plain b mi :=
    hrun.invariant (fun _ _ _ h hstep => h.step hload hstep) .start
  refine ⟨fun id => hinv.mem_referencedBlobs hdone, fun p => ?_⟩
  rw [hinv.packs p]
  constructor
  · rintro ⟨id, hid, l, hget, hp⟩
    exact ⟨id, l, hinv.blobs id hid, hget, hp⟩
  · rintro ⟨id, l, hid, hget, hp⟩
    exact ⟨id, (hinv.mem_referencedBlobs hdone).mpr hid, l, hget, hp⟩

end Exact

/-! ## The mark phase ends -/

section Ends

variable {env : Env} {codec : TreeCodec} {b : Backend} {mi : MasterIndex} {m m' : Mark}

/-- What is left to do: the trees that were not seen, the loads, and the stacks. -/
def rest (m : Mark) : ℕ ×ₗ ℕ ×ₗ ℕ :=
  toLex (m.verifiedTreesᶜ.card, toLex (m.loading.length, m.stack.length))

theorem length_erase_lt {t : ID} {l : List ID} (h : t ∈ l) : (l.erase t).length < l.length := by
  rw [List.length_erase_of_mem h]
  exact Nat.sub_lt (List.length_pos_of_mem h) Nat.one_pos

/-- Each step leaves less to do: a tree is visited once only, however often and from wherever it is
referred to. -/
theorem Step.rest_lt {u : Unit} (h : Step env codec b mi m u m') : m'.rest < m.rest := by
  cases h with
  | @skip t ht hseen =>
    refine Prod.Lex.right _ (Prod.Lex.right _ ?_)
    exact length_erase_lt ht
  | @visit t ht hseen =>
    refine Prod.Lex.left _ _ (Finset.card_lt_card ?_)
    rw [Finset.compl_ssubset_compl]
    exact Finset.ssubset_insert hseen
  | @load t bytes nodes ht hbytes hnodes =>
    rw [foldl_visitNode]
    obtain ⟨-, hloading, hverified⟩ := foldl_reference_frame env.toIndexEnv mi (blobsOf nodes)
      { m with stack := m.stack ++ nodes.filterMap Node.tree, loading := m.loading.erase t }
    unfold rest
    rw [hverified, hloading]
    exact Prod.Lex.right _ (Prod.Lex.left _ _ (length_erase_lt ht))

/-- No schedule goes on forever. -/
theorem wellFounded_step (env : Env) (codec : TreeCodec) (b : Backend) (mi : MasterIndex) :
    WellFounded fun m' m => Step env codec b mi m () m' :=
  Subrelation.wf (fun h => Step.rest_lt h) (InvImage.wf rest wellFounded_lt)

/-- The tree can be loaded and parsed. -/
def Loads (env : Env) (codec : TreeCodec) (b : Backend) (mi : MasterIndex) (t : ID) : Prop :=
  ∃ bytes nodes, loadBlob env b mi t = some bytes ∧ codec.fromSlice bytes = some nodes

/-- A mark phase that has not ended goes on, unless a load fails. -/
theorem done_or_step (m : Mark) : m.Done ∨ (∃ m', Step env codec b mi m () m') ∨
    ∃ t ∈ m.loading, ¬ Loads env codec b mi t := by
  cases hload : m.loading with
  | cons t loading =>
    have ht : t ∈ m.loading := by
      rw [hload]
      exact List.mem_cons_self
    by_cases hloads : Loads env codec b mi t
    · obtain ⟨bytes, nodes, hbytes, hnodes⟩ := hloads
      exact Or.inr (Or.inl ⟨_, .load ht hbytes hnodes⟩)
    · exact Or.inr (Or.inr ⟨t, List.mem_cons_self, hloads⟩)
  | nil =>
    cases hstack : m.stack with
    | nil => exact Or.inl ⟨hstack, hload⟩
    | cons t stack =>
      have ht : t ∈ m.stack := by
        rw [hstack]
        exact List.mem_cons_self
      by_cases hseen : t ∈ m.verifiedTrees
      · exact Or.inr (Or.inl ⟨_, .skip ht hseen⟩)
      · exact Or.inr (Or.inl ⟨_, .visit ht hseen⟩)

/-- The contents of the trees as the repository has them. -/
def contents (env : Env) (b : Backend) (mi : MasterIndex) (t : ID) : Bytes :=
  (loadBlob env b mi t).getD []

/-- **The mark phase ends and is exact.** Whatever the schedule and the graph of the trees, it
cannot go on forever, and it only stops when all tasks have ended or a tree cannot be loaded. When
all tasks have ended, it has collected exactly the closures of the snapshots and the packs that the
index finds them in. -/
theorem mark_ends_and_is_exact (env : Env) (codec : TreeCodec) (b : Backend) (mi : MasterIndex) :
    (WellFounded fun m' m => Step env codec b mi m () m') ∧
    (∀ m : Mark, m.Done ∨ (∃ m', Step env codec b mi m () m') ∨
      ∃ t ∈ m.loading, ¬ Loads env codec b mi t) ∧
    ∀ ls m, Run (Step env codec b mi) (start b) ls m → m.Done →
      (∀ id, id ∈ m.referencedBlobs ↔ b.Live codec (contents env b mi) id) ∧
        ∀ p, p ∈ m.referencedPacks ↔ ∃ id l, b.Live codec (contents env b mi) id ∧
          mi.get env.toIndexEnv id = some l ∧ l.packId = p := by
  refine ⟨wellFounded_step env codec b mi, done_or_step, fun ls m hrun hdone => ?_⟩
  have hload : ∀ t bytes, loadBlob env b mi t = some bytes → bytes = contents env b mi t := by
    intro t bytes hbytes
    rw [contents, hbytes, Option.getD_some]
  exact exact hload hrun hdone

end Ends

end Mark

/-! ## The classification is exact -/

/-- The bytes of the entries in the pack. -/
def sizeIn (es : List (ID × BlobLocator)) (p : ID) : Nat :=
  ((es.filter fun e => e.2.packId = p).map fun e => e.2.length).sum

theorem lookup_foldl_sum (es : List (ID × BlobLocator)) (t : Table ID Nat) (p : ID) :
    (es.foldl (fun t e => t.insert e.2.packId ((t.lookup e.2.packId).getD 0 + e.2.length)) t).lookup
    p =
      if ∃ e ∈ es, e.2.packId = p then some ((t.lookup p).getD 0 + sizeIn es p) else t.lookup p := by
  induction es generalizing t with
  | nil => simp
  | cons e es ih =>
    rw [List.foldl_cons, ih, Table.lookup_insert_eq_ite]
    by_cases hp : p = e.2.packId
    · -- the entry lies in the pack: its length comes in front of the others
      subst hp
      have hsize : sizeIn (e :: es) e.2.packId = e.2.length + sizeIn es e.2.packId := by
        simp [sizeIn]
      have hex : ∃ e' ∈ e :: es, e'.2.packId = e.2.packId := ⟨e, List.mem_cons_self, rfl⟩
      rw [if_pos rfl, if_pos hex, hsize]
      split
      · simp [Nat.add_assoc]
      · rename_i hnone
        have hzero : sizeIn es e.2.packId = 0 := by
          have hnil : (es.filter fun e' => e'.2.packId = e.2.packId) = [] := by
            rw [List.filter_eq_nil_iff]
            intro e' he' heq
            exact hnone ⟨e', he', by simpa using heq⟩
          rw [sizeIn, hnil]
          rfl
        rw [hzero, Nat.add_zero]
    · have hsize : sizeIn (e :: es) p = sizeIn es p := by
        simp [sizeIn, Ne.symm hp]
      have hiff : (∃ e' ∈ e :: es, e'.2.packId = p) ↔ ∃ e' ∈ es, e'.2.packId = p := by
        simp [Ne.symm hp]
      rw [if_neg hp, hsize]
      simp only [hiff]

theorem mem_packsWhere {test : Nat → Bool} {es : List (ID × BlobLocator)} {p : ID} :
    p ∈ packsWhere test (sumByPack es) ↔
      (∃ e ∈ es, e.2.packId = p) ∧ test (sizeIn es p) = true := by
  have hlookup : ∀ size, (sumByPack es).lookup p = some size ↔
      (∃ e ∈ es, e.2.packId = p) ∧ size = sizeIn es p := by
    intro size
    have hempty : (∅ : Table ID Nat).lookup p = none := rfl
    rw [sumByPack, lookup_foldl_sum, hempty]
    split
    · rename_i hex
      simp only [Option.getD_none, Nat.zero_add, Option.some.injEq]
      exact ⟨fun h => ⟨hex, h.symm⟩, fun h => h.2.symm⟩
    · rename_i hex
      exact ⟨fun h => (by cases h), fun h => absurd h.1 hex⟩
  rw [packsWhere, List.mem_toFinset, List.mem_map]
  constructor
  · rintro ⟨⟨p', size⟩, hmem, hp'⟩
    cases hp'
    obtain ⟨hmem, htest⟩ := List.mem_filter.mp hmem
    obtain ⟨hex, hsize⟩ := (hlookup size).mp (Table.mem_toList.mp hmem)
    exact ⟨hex, hsize ▸ htest⟩
  · rintro ⟨hex, htest⟩
    exact ⟨(p, sizeIn es p),
      List.mem_filter.mpr ⟨Table.mem_toList.mpr ((hlookup _).mpr ⟨hex, rfl⟩), htest⟩, rfl⟩

theorem Plan.mem_packsToRepack {plan : Plan} {p : ID} : p ∈ plan.packsToRepack ↔
    p ∈ plan.obsoletePacks ∨ (p ∈ plan.smallPacks ∧ ∃ q, q ≠ p ∧ q ∈ plan.smallPacks) := by
  unfold Plan.packsToRepack
  split_ifs with hcard
  · -- there are at least two small packs, so one of them is not this one
    rw [Finset.mem_union]
    refine or_congr_right ⟨fun hp => ⟨hp, ?_⟩, And.left⟩
    obtain ⟨q, hq, hne⟩ := Finset.exists_mem_ne hcard p
    exact ⟨q, hne, hq⟩
  · refine ⟨Or.inl, ?_⟩
    rintro (hp | ⟨hp, q, hne, hq⟩)
    · exact hp
    · exact absurd (Finset.one_lt_card.mpr ⟨p, hp, q, hq, hne.symm⟩) hcard

namespace Backend

/-- No live blob is found in the pack. -/
def Unused (env : IndexEnv) (codec : TreeCodec) (plain : ID → Bytes) (b : Backend)
    (mi : MasterIndex) (p : ID) : Prop :=
  (∃ data, b.packs.lookup p = some data) ∧
    ∀ id l, b.Live codec plain id → mi.get env id = some l → l.packId ≠ p

open Classical in
/-- The entries of blobs that are not live. -/
noncomputable def garbage (codec : TreeCodec) (plain : ID → Bytes) (b : Backend)
    (mi : MasterIndex) : List (ID × BlobLocator) :=
  mi.entries.filter fun e => ¬ b.Live codec plain e.1

/-- The pack has garbage above the tolerance. -/
def Dirty (codec : TreeCodec) (plain : ID → Bytes) (limits : GcLimits) (b : Backend)
    (mi : MasterIndex) (p : ID) : Prop :=
  (∃ e ∈ b.garbage codec plain mi, e.2.packId = p) ∧
    limits.exceedsTolerance (sizeIn (b.garbage codec plain mi) p) = true

/-- The blobs of the pack are below the minimum pack size. -/
def Small (limits : GcLimits) (mi : MasterIndex) (p : ID) : Prop :=
  (∃ e ∈ mi.entries, e.2.packId = p) ∧ limits.isSmall (sizeIn mi.entries p) = true

/-- The pack is to be repacked: it is dirty, or it is small and not the only small one. -/
def Obsolete (codec : TreeCodec) (plain : ID → Bytes) (limits : GcLimits) (b : Backend)
    (mi : MasterIndex) (p : ID) : Prop :=
  b.Dirty codec plain limits mi p ∨ (Small limits mi p ∧ ∃ q, q ≠ p ∧ Small limits mi q)

end Backend

section Describes

variable {env : Env} {codec : TreeCodec} {plain : ID → Bytes} {limits : GcLimits} {b : Backend}
  {mi : MasterIndex} {plan : Plan}

/-- The plan in terms of the repository. -/
structure Plan.Describes (env : Env) (codec : TreeCodec) (plain : ID → Bytes) (limits : GcLimits)
    (b : Backend) (mi : MasterIndex) (plan : Plan) : Prop where
  live : ∀ id, id ∈ plan.referencedBlobs ↔ b.Live codec plain id
  unused : ∀ p, p ∈ plan.unusedPacks ↔ b.Unused env.toIndexEnv codec plain mi p
  obsolete : ∀ p, p ∈ plan.packsToRepack ↔ b.Obsolete codec plain limits mi p
  indexIds : plan.indexIds = mi.ids

/-- **The scan classifies the packs of the repository as they are.** -/
theorem Scan.describes (hload : ∀ t bytes, loadBlob env b mi t = some bytes → bytes = plain t)
    (h : Scan env codec limits b mi plan) : plan.Describes env codec plain limits b mi := by
  obtain ⟨ls, m, hrun, hdone, rfl⟩ := h
  obtain ⟨hblobs, hpacks⟩ := Mark.exact hload hrun hdone
  have hgarbage : (mi.entries.filter fun e => e.1 ∉ m.referencedBlobs) = b.garbage codec plain mi := by
    refine List.filter_congr fun e _ => ?_
    exact decide_eq_decide.mpr (not_congr (hblobs e.1))
  refine ⟨hblobs, fun p => ?_, fun p => ?_, rfl⟩
  · simp only [Mark.plan, Finset.mem_sdiff, List.mem_toFinset, hpacks, Backend.Unused]
    refine and_congr ?_ ?_
    · rw [← AList.mem_keys, ← AList.lookup_isSome, Option.isSome_iff_exists]
    · constructor
      · exact fun hno id l hlive hget hp => hno ⟨id, l, hlive, hget, hp⟩
      · rintro hno ⟨id, l, hlive, hget, hp⟩
        exact hno id l hlive hget hp
  · have hdirty : p ∈ packsWhere limits.exceedsTolerance
        (sumByPack (mi.entries.filter fun e => e.1 ∉ m.referencedBlobs)) ↔
          b.Dirty codec plain limits mi p := by
      rw [hgarbage, mem_packsWhere]
      rfl
    have hsmall : ∀ q, q ∈ packsWhere limits.isSmall (sumByPack mi.entries) ↔
        Backend.Small limits mi q := fun q => mem_packsWhere
    rw [Plan.mem_packsToRepack, Backend.Obsolete]
    refine or_congr hdirty (and_congr (hsmall p) ?_)
    exact exists_congr fun q => and_congr_right fun _ => hsmall q

/-- A pack that is to be repacked has entries. -/
theorem Plan.Describes.exists_entry (h : plan.Describes env codec plain limits b mi) {p : ID}
    (hp : p ∈ plan.packsToRepack) : ∃ e ∈ mi.entries, e.2.packId = p := by
  rcases (h.obsolete p).mp hp with ⟨⟨e, he, hpe⟩, -⟩ | ⟨⟨hex, -⟩, -⟩
  · exact ⟨e, List.mem_of_mem_filter he, hpe⟩
  · exact hex

end Describes

end Mapache
