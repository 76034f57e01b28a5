import Mapache.Repository.VerifyRefs

/-!
# Copying snapshots

`cmd_copy`: `collect_blobs` walks the trees of the selected snapshots in the source repository and
lists the blobs to copy, and `copy_snapshots` transfers those that the destination does not have,
flushes its pack saver and then writes the snapshot files.

A tree that cannot be loaded during the walk is listed without its children, with a warning only.
The transfer loads it again and may succeed, or the destination has the tree already, and the
snapshot is written without the blobs below (`copied_without_children`). Otherwise the copy is
complete before a snapshot is written (`copied_snapshots_are_complete`).
-/

set_option autoImplicit false

namespace Mapache

open Lib

/-- The source repository with its loaded index. `reads` tells which trees could be read during the
walk. -/
structure CopySource where
  env : Env
  codec : TreeCodec
  backend : Backend
  index : MasterIndex
  reads : ID → Bool

namespace CopySource

/-- What a tree of the source has in it. -/
def contents (src : CopySource) : ID → Bytes := Mark.contents src.env src.backend src.index

/-- `Repository::load_blob` of the source. -/
def loadBlob (src : CopySource) (id : ID) : Option Bytes :=
  Mapache.loadBlob src.env src.backend src.index id

/-- `Tree::load_from_repo` during the walk. -/
def loadFromRepo (src : CopySource) (t : ID) : Option (List Node) :=
  if src.reads t then loadTree src.env src.codec src.backend src.index t else none

end CopySource

/-! ## The walk -/

/-- What `collect_blobs` has besides the visited trees. The top of the stack comes first. -/
structure CopyWalk where
  treeStack : List ID
  visitedBlobs : Finset ID
  blobList : List (ID × BlobType)

namespace CopyWalk

/-- The body of the loop over the blobs of a node. -/
def addBlob (c : CopyWalk) (id : ID) : CopyWalk :=
  if id ∈ c.visitedBlobs then c
  else { c with
    visitedBlobs := insert id c.visitedBlobs
    blobList := c.blobList ++ [(id, .data)] }

/-- The body of the loop over the nodes of a tree. -/
def addNode (c : CopyWalk) (node : Node) : CopyWalk :=
  (node.blobs.getD []).foldl addBlob { c with treeStack := node.tree.toList ++ c.treeStack }

/-- A tree is listed, and its nodes are followed if it can be loaded. -/
def addTree (load : ID → Option (List Node)) (c : CopyWalk) (t : ID) : CopyWalk :=
  let listed := { c with blobList := c.blobList ++ [(t, .tree)] }
  match load t with
  | some nodes => nodes.foldl addNode listed
  | none => listed

end CopyWalk

/-- The loop over the stack. -/
def collectTrees (load : ID → Option (List Node)) (visitedTrees : Finset ID) (c : CopyWalk) :
    List (ID × BlobType) :=
  match _hs : c.treeStack with
  | [] => c.blobList
  | t :: rest =>
    if _h : t ∈ visitedTrees then collectTrees load visitedTrees { c with treeStack := rest }
    else
      collectTrees load (insert t visitedTrees)
        (CopyWalk.addTree load { c with treeStack := rest } t)
termination_by (visitedTreesᶜ.card, c.treeStack.length)
decreasing_by
  · rw [_hs]
    exact Prod.Lex.right _ (Nat.lt_succ_self _)
  · exact Prod.Lex.left _ _ (card_compl_insert_lt _h)

/-- `collect_blobs`. -/
def CopySource.collectBlobs (src : CopySource) (snapshots : List (ID × Snapshot)) :
    List (ID × BlobType) :=
  collectTrees src.loadFromRepo ∅ ⟨(snapshots.map fun e => e.2.tree).reverse, ∅, []⟩

/-! ## What the walk lists -/

/-- A tree that could be loaded has a subtree. -/
def LoadedSubtree (load : ID → Option (List Node)) (t t' : ID) : Prop :=
  ∃ nodes, load t = some nodes ∧ ∃ node ∈ nodes, node.tree = some t'

/-- A blob of a tree that could be loaded. -/
def LoadedBlob (load : ID → Option (List Node)) (t id : ID) : Prop :=
  ∃ nodes, load t = some nodes ∧ ∃ node ∈ nodes, id ∈ node.blobs.getD []

/-- The blob is found from the root on a way through trees that could be loaded. -/
inductive Found (load : ID → Option (List Node)) (root : ID) : ID → Prop where
  | tree {t : ID} : Relation.ReflTransGen (LoadedSubtree load) root t → Found load root t
  | blob {t id : ID} : Relation.ReflTransGen (LoadedSubtree load) root t → LoadedBlob load t id →
      Found load root id

/-- The IDs of a list of blobs. -/
def listedIds (blobList : List (ID × BlobType)) : List ID := blobList.map Prod.fst

/-- Every visited blob is listed, and nothing is listed as padding. -/
structure CopyWalk.WF (c : CopyWalk) : Prop where
  visited : ∀ id ∈ c.visitedBlobs, id ∈ listedIds c.blobList
  types : ∀ e ∈ c.blobList, e.2 ≠ .padding

namespace CopyWalk

variable {load : ID → Option (List Node)} {c : CopyWalk}

theorem listedIds_append (l l' : List (ID × BlobType)) :
    listedIds (l ++ l') = listedIds l ++ listedIds l' :=
  List.map_append

theorem WF.snoc {id : ID} {t : BlobType} {visited : Finset ID} {stack : List ID} (h : c.WF)
    (ht : t ≠ .padding) (hvisited : visited ⊆ insert id c.visitedBlobs) :
    CopyWalk.WF ⟨stack, visited, c.blobList ++ [(id, t)]⟩ := by
  refine ⟨fun id' hid' => ?_, ?_⟩
  · rw [listedIds_append]
    rcases Finset.mem_insert.mp (hvisited hid') with rfl | hold
    · exact List.mem_append_right _ (List.mem_singleton_self _)
    · exact List.mem_append_left _ (h.visited id' hold)
  · rw [List.forall_mem_append, List.forall_mem_singleton]
    exact ⟨h.types, ht⟩

/-- The loop over blobs leaves the stack, keeps what is listed and lists the blobs. -/
theorem foldl_addBlob (ids : List ID) (h : c.WF) :
    (ids.foldl addBlob c).WF ∧ (ids.foldl addBlob c).treeStack = c.treeStack ∧
      listedIds c.blobList ⊆ listedIds (ids.foldl addBlob c).blobList ∧
      ∀ id ∈ ids, id ∈ listedIds (ids.foldl addBlob c).blobList := by
  induction ids generalizing c with
  | nil => exact ⟨h, rfl, List.Subset.refl _, fun id hid => absurd hid List.not_mem_nil⟩
  | cons id ids ih =>
    rw [List.foldl_cons]
    -- after the first blob
    have hfirst : (c.addBlob id).WF ∧ (c.addBlob id).treeStack = c.treeStack ∧
        listedIds c.blobList ⊆ listedIds (c.addBlob id).blobList ∧
        id ∈ listedIds (c.addBlob id).blobList := by
      unfold addBlob
      split
      · exact ⟨h, rfl, List.Subset.refl _, h.visited id ‹_›⟩
      · refine ⟨h.snoc (by decide) (Finset.Subset.refl _), rfl, ?_, ?_⟩ <;> rw [listedIds_append]
        · exact List.subset_append_left _ _
        · exact List.mem_append_right _ (List.mem_singleton_self _)
    obtain ⟨hwf, hstack, hsub, hid⟩ := hfirst
    obtain ⟨hwf', hstack', hsub', hids⟩ := ih hwf
    refine ⟨hwf', hstack'.trans hstack, List.Subset.trans hsub hsub', ?_⟩
    rw [List.forall_mem_cons]
    exact ⟨hsub' hid, hids⟩

/-- The loop over nodes pushes the subtrees and lists the blobs. -/
theorem foldl_addNode (nodes : List Node) (h : c.WF) :
    (nodes.foldl addNode c).WF ∧
      (∀ t, t ∈ (nodes.foldl addNode c).treeStack ↔
        (∃ node ∈ nodes, node.tree = some t) ∨ t ∈ c.treeStack) ∧
      listedIds c.blobList ⊆ listedIds (nodes.foldl addNode c).blobList ∧
      ∀ node ∈ nodes, ∀ id ∈ node.blobs.getD [],
        id ∈ listedIds (nodes.foldl addNode c).blobList := by
  induction nodes generalizing c with
  | nil => simpa using h
  | cons node nodes ih =>
    rw [List.foldl_cons]
    obtain ⟨hwf, hstack, hsub, hblobs⟩ := foldl_addBlob (node.blobs.getD [])
      (c := { c with treeStack := node.tree.toList ++ c.treeStack }) ⟨h.visited, h.types⟩
    obtain ⟨hwf', hstack', hsub', hblobs'⟩ := ih (c := c.addNode node) hwf
    refine ⟨hwf', fun t => ?_, List.Subset.trans hsub hsub', ?_⟩
    · have hnode : t ∈ (c.addNode node).treeStack ↔ node.tree = some t ∨ t ∈ c.treeStack := by
        unfold addNode
        rw [hstack]
        simp
      rw [hstack', hnode, List.exists_mem_cons_iff, or_assoc]
      exact or_left_comm
    · rw [List.forall_mem_cons]
      exact ⟨fun id hid => hsub' (hblobs id hid), hblobs'⟩

/-- A tree is listed with its blobs, and its subtrees are pushed. -/
theorem addTree_spec (t : ID) (h : c.WF) :
    (c.addTree load t).WF ∧
      (∀ s, s ∈ (c.addTree load t).treeStack ↔ LoadedSubtree load t s ∨ s ∈ c.treeStack) ∧
      listedIds c.blobList ⊆ listedIds (c.addTree load t).blobList ∧
      t ∈ listedIds (c.addTree load t).blobList ∧
      ∀ id, LoadedBlob load t id → id ∈ listedIds (c.addTree load t).blobList := by
  have hwf : CopyWalk.WF ⟨c.treeStack, c.visitedBlobs, c.blobList ++ [(t, .tree)]⟩ :=
    h.snoc (by decide) (Finset.subset_insert _ _)
  have hsub : listedIds c.blobList ⊆ listedIds (c.blobList ++ [(t, .tree)]) := by
    rw [listedIds_append]
    exact List.subset_append_left _ _
  have hself : t ∈ listedIds (c.blobList ++ [(t, .tree)]) := by
    rw [listedIds_append]
    exact List.mem_append_right _ (List.mem_singleton_self _)
  unfold addTree LoadedSubtree LoadedBlob
  cases hload : load t with
  | none => exact ⟨hwf, by simp, hsub, hself, by simp⟩
  | some nodes =>
    obtain ⟨hwf', hstack, hsub', hblobs⟩ := foldl_addNode nodes hwf
    refine ⟨hwf', fun s => ?_, List.Subset.trans hsub hsub', hsub' hself, ?_⟩
    · simpa using hstack s
    · rintro id ⟨nodes', hnodes', node, hnode, hid⟩
      cases hnodes'
      exact hblobs node hnode id hid

end CopyWalk

section Walk

variable {load : ID → Option (List Node)}

/-- What is listed stays listed, and nothing is listed as padding. -/
theorem collectTrees_spec (V : Finset ID) (c : CopyWalk) (h : c.WF) :
    listedIds c.blobList ⊆ listedIds (collectTrees load V c) ∧
      ∀ e ∈ collectTrees load V c, e.2 ≠ .padding := by
  fun_induction collectTrees load V c with
  | case1 V c hs => exact ⟨List.Subset.refl _, h.types⟩
  | case2 V c t rest hs hmem ih => exact ih ⟨h.visited, h.types⟩
  | case3 V c t rest hs hmem ih =>
    have hrest : CopyWalk.WF { c with treeStack := rest } := ⟨h.visited, h.types⟩
    obtain ⟨hwf, -, hsub, -, -⟩ := @CopyWalk.addTree_spec load _ t hrest
    obtain ⟨hkeep, htypes⟩ := ih hwf
    exact ⟨List.Subset.trans hsub hkeep, htypes⟩

/-- **The walk lists the trees that it reaches around the visited ones, with their blobs.** -/
theorem listed_of_around (V : Finset ID) (c : CopyWalk) (h : c.WF) :
    ∀ s ∈ c.treeStack, ∀ t, Around (LoadedSubtree load) ↑V s t →
      t ∈ listedIds (collectTrees load V c) ∧
        ∀ id, LoadedBlob load t id → id ∈ listedIds (collectTrees load V c) := by
  fun_induction collectTrees load V c with
  | case1 V c hs =>
    rw [hs]
    exact fun s hs => absurd hs List.not_mem_nil
  | case2 V c t rest hs hmem ih =>
    rw [hs, forall_around_skip (Finset.mem_coe.mpr hmem)]
    exact ih ⟨h.visited, h.types⟩
  | case3 V c t rest hs hmem ih =>
    have hrest : CopyWalk.WF { c with treeStack := rest } := ⟨h.visited, h.types⟩
    obtain ⟨hwf, hstack, -, hself, hblobs⟩ := @CopyWalk.addTree_spec load _ t hrest
    have hkeep := (@collectTrees_spec load (insert t V) _ hwf).1
    rw [hs, forall_around_visit (by simpa using hmem) hstack, ← Finset.coe_insert]
    exact ⟨⟨hkeep hself, fun id hid => hkeep (hblobs id hid)⟩, ih hwf⟩

end Walk

/-- **What is found from a snapshot is listed.** -/
theorem mem_collectBlobs_of_found {src : CopySource} {snapshots : List (ID × Snapshot)}
    {e : ID × Snapshot} (he : e ∈ snapshots) {id : ID} (h : Found src.loadFromRepo e.2.tree id) :
    id ∈ listedIds (src.collectBlobs snapshots) := by
  have hwf : CopyWalk.WF ⟨(snapshots.map fun e => e.2.tree).reverse, ∅, []⟩ :=
    ⟨fun id hid => absurd hid (Finset.notMem_empty id), fun e he => absurd he List.not_mem_nil⟩
  have hroot : e.2.tree ∈ (snapshots.map fun e => e.2.tree).reverse :=
    List.mem_reverse.mpr (List.mem_map_of_mem he)
  have haround : ∀ {t : ID}, Relation.ReflTransGen (LoadedSubtree src.loadFromRepo) e.2.tree t →
      Around (LoadedSubtree src.loadFromRepo) ↑(∅ : Finset ID) e.2.tree t := by
    intro t ht
    have hclosed := around_or_mem_of_closed (V := ↑(∅ : Finset ID)) (by simp) ht
    exact hclosed.resolve_right (by simp)
  cases h with
  | tree ht => exact (listed_of_around ∅ _ hwf _ hroot _ (haround ht)).1
  | blob ht hid => exact (listed_of_around ∅ _ hwf _ hroot _ (haround ht)).2 id hid

/-! ## The copy -/

/-- Where `copy_snapshots` stands. -/
inductive CopyPhase where
  /-- The stream of the transfers still has `todo`. `failed` once a transfer has returned an error.
  -/
  | transferring (todo : List (ID × BlobType)) (failed : Bool)
  | flushing
  /-- In `write_snapshots_to_dest`. -/
  | writing (todo : List (ID × Snapshot))
  | finished (ok : Bool)

/-- A transfer has returned an error. -/
def CopyPhase.fail : CopyPhase → CopyPhase
  | .transferring todo _ => .transferring todo true
  | phase => phase

/-- The state of a copy: the files of the destination and its pack saver. -/
structure Copy (κ : Type) (n : Nat) where
  phase : CopyPhase
  backend : Backend
  pipe : Pipe κ n

/-- What a copy does in a step. -/
inductive CopyEvent (κ : Type) where
  | command
  | work (l : PipeEvent κ)
  | saveSnapshot (sid : ID)

/-- The blobs that are not in the index of the destination. -/
def toCopy (env : IndexEnv) (destIndex : MasterIndex) (blobList : List (ID × BlobType)) :
    List (ID × BlobType) :=
  blobList.filter fun e => !destIndex.contains env e.1

namespace Copy

variable {κ : Type} {n : Nat}

/-- `copy_snapshots` has looked up what to copy. If that is nothing, it writes the snapshots at
once. -/
def start (src : CopySource) (env : Env) (snapshots : List (ID × Snapshot)) (b : Backend)
    (num : b.Instances) : Copy κ n :=
  let destIndex := b.reloadMasterIndex env.toIndexEnv num
  { phase := match toCopy env.toIndexEnv destIndex (src.collectBlobs snapshots) with
      | [] => .writing snapshots
      | e :: todo => .transferring (e :: todo) false
    backend := b
    pipe := .init destIndex }

/-- A step of `copy_snapshots`, of a transfer or of the pack saver. -/
inductive Step [DecidableEq κ] (src : CopySource) (env : Env) (snapshots : List (ID × Snapshot)) :
    Copy κ n → CopyEvent κ → Copy κ n → Prop where
  /-- A transfer has loaded its blob and calls `encode_and_save_blob`. -/
  | transfer {b : Backend} {p p' : Pipe κ n} {k : κ} {id : ID} {t : BlobType} {data : Bytes}
      {todo : List (ID × BlobType)} {failed : Bool} : src.loadBlob id = some data →
      Pipe.CallStep env p (.call k t data (.withID id)) p' →
      Step src env snapshots ⟨.transferring ((id, t) :: todo) failed, b, p⟩
        (.work (.call k t data (.withID id))) ⟨.transferring todo failed, b, p'⟩
  /-- A transfer is interrupted, or it cannot load its blob. -/
  | transferFail {b : Backend} {p : Pipe κ n} {e : ID × BlobType} {todo : List (ID × BlobType)}
      {failed : Bool} : Step src env snapshots ⟨.transferring (e :: todo) failed, b, p⟩ .command
        ⟨.transferring todo true, b, p⟩
  /-- The call of a transfer goes on. -/
  | caller {phase : CopyPhase} {b : Backend} {p p' : Pipe κ n} {k : κ} :
      Pipe.CallStep env p (.caller k) p' → (p.callers k).outcome (p'.callers k) ≠ .err →
      Step src env snapshots ⟨phase, b, p⟩ (.work (.caller k)) ⟨phase, b, p'⟩
  | callerErr {phase : CopyPhase} {b : Backend} {p p' : Pipe κ n} {k : κ} :
      Pipe.CallStep env p (.caller k) p' → (p.callers k).outcome (p'.callers k) = .err →
      Step src env snapshots ⟨phase, b, p⟩ (.work (.caller k)) ⟨phase.fail, b, p'⟩
  | saver {phase : CopyPhase} {b : Backend} {p p' : Pipe κ n} : Pipe.SaverStep env p p' →
      Step src env snapshots ⟨phase, b, p⟩ (.work .saver) ⟨phase, b, p'⟩
  | worker {phase : CopyPhase} {b b' : Backend} {p p' : Pipe κ n} {l : PipeEvent κ} :
      Pipe.WorkerStep env b p l b' p' →
      Step src env snapshots ⟨phase, b, p⟩ (.work l) ⟨phase, b', p'⟩
  /-- The loop over the results has met an error. -/
  | abort {b : Backend} {p : Pipe κ n} {todo : List (ID × BlobType)} :
      Step src env snapshots ⟨.transferring todo true, b, p⟩ .command ⟨.finished false, b, p⟩
  /-- All transfers have returned `Ok`. -/
  | drained {b : Backend} {p : Pipe κ n} : (∀ k, p.callers k = .idle) →
      Step src env snapshots ⟨.transferring [] false, b, p⟩ .command ⟨.flushing, b, p⟩
  | flush {b b' : Backend} {p p' : Pipe κ n} {l : PipeEvent κ} : Pipe.FlushStep b p l b' p' →
      Step src env snapshots ⟨.flushing, b, p⟩ (.work l) ⟨.flushing, b', p'⟩
  | flushed {b : Backend} {p : Pipe κ n} : p.flush = .finished true →
      Step src env snapshots ⟨.flushing, b, p⟩ .command ⟨.writing snapshots, b, p⟩
  | flushFail {b : Backend} {p : Pipe κ n} : p.flush = .finished false →
      Step src env snapshots ⟨.flushing, b, p⟩ .command ⟨.finished false, b, p⟩
  /-- The snapshot file is loaded again and written as it is. -/
  | write {b : Backend} {p : Pipe κ n} {sid : ID} {listed snap : Snapshot}
      {todo : List (ID × Snapshot)} : src.backend.snapshots.lookup sid = some snap →
      Step src env snapshots ⟨.writing ((sid, listed) :: todo), b, p⟩ (.saveSnapshot sid)
        ⟨.writing todo, b.saveSnapshot sid snap, p⟩
  /-- The snapshot file cannot be loaded or written; a write that reached the backend all the same
  is a `write` before this step. -/
  | writeFail {b : Backend} {p : Pipe κ n} {todo : List (ID × Snapshot)} :
      Step src env snapshots ⟨.writing todo, b, p⟩ .command ⟨.finished false, b, p⟩
  | done {b : Backend} {p : Pipe κ n} :
      Step src env snapshots ⟨.writing [], b, p⟩ .command ⟨.finished true, b, p⟩

end Copy

/-! ## The invariant of a copy -/

section Inv

variable {κ : Type} {n : Nat} {src : CopySource} {env : Env} {plain : ID → Bytes}
  {snapshots : List (ID × Snapshot)} {todo₀ : List (ID × BlobType)} {b b' : Backend}
  {p p' : Pipe κ n}

/-- A call for the blob is under way, or the pack saver knows the blob. -/
def Pipe.InHand (p : Pipe κ n) (id : ID) : Prop :=
  (∃ k c, (p.callers k).blob = some c ∧ c.id = id) ∨ p.Knows id

/-- Where the blobs of `todo₀` and the snapshots are in each phase. -/
def CopyPhase.Inv (todo₀ : List (ID × BlobType)) (snapshots : List (ID × Snapshot)) (b : Backend)
    (p : Pipe κ n) : CopyPhase → Prop
  | .transferring todo failed => (∀ e ∈ todo, e ∈ todo₀) ∧
      (failed = false → ∀ e ∈ todo₀, e ∈ todo ∨ p.InHand e.1)
  | .flushing => ∀ e ∈ todo₀, p.Knows e.1
  | .writing todo => (∀ e ∈ todo₀, b.Indexed Set.univ e.1) ∧
      ∀ e ∈ snapshots, e ∈ todo ∨ b.snapshots.lookup e.1 = some e.2
  | .finished ok => ok = true → (∀ e ∈ todo₀, b.Indexed Set.univ e.1) ∧
      ∀ e ∈ snapshots, b.snapshots.lookup e.1 = some e.2

/-- A step of the pack saver keeps what a phase needs, provided that no call is lost while transfers
run. -/
theorem CopyPhase.Inv.mono {phase : CopyPhase} (h : phase.Inv todo₀ snapshots b p)
    (hknows : ∀ id, p.Knows id → p'.Knows id)
    (hhand : ∀ todo, phase = .transferring todo false → ∀ id, p.InHand id → p'.InHand id)
    (hb : Backend.Keeps Set.univ b b') (hsnaps : b'.snapshots = b.snapshots) :
    phase.Inv todo₀ snapshots b' p' := by
  cases phase with
  | transferring todo failed =>
    refine ⟨h.1, ?_⟩
    rintro rfl e he
    exact (h.2 rfl e he).imp_right (hhand todo rfl e.1)
  | flushing => exact fun e he => hknows e.1 (h e he)
  | writing todo =>
    refine ⟨fun e he => hb.indexed e.1 (h.1 e he), ?_⟩
    rw [hsnaps]
    exact h.2
  | finished ok =>
    intro hok
    refine ⟨fun e he => hb.indexed e.1 ((h hok).1 e he), ?_⟩
    rw [hsnaps]
    exact (h hok).2

theorem CopyPhase.Inv.fail {phase : CopyPhase} (h : phase.Inv todo₀ snapshots b p) :
    phase.fail.Inv todo₀ snapshots b p := by
  cases phase with
  | transferring todo failed => exact ⟨h.1, fun hfalse => by cases hfalse⟩
  | _ => exact h

/-- What is in hand stays so when the callers do not move. -/
theorem Pipe.InHand.of_callers_eq (hcallers : p'.callers = p.callers)
    (hknows : ∀ id, p.Knows id → p'.Knows id) {id : ID} (h : p.InHand id) : p'.InHand id := by
  refine h.imp ?_ (hknows id)
  rw [hcallers]
  exact fun h => h

variable [DecidableEq κ]

/-- A call that goes on without an error keeps its blob in hand: when it returns, the pack saver
knows the blob. -/
theorem Pipe.InHand.callStep {k : κ} (hinv : p.Inv env plain Set.univ Set.univ b)
    (hstep : CallStep env p (.caller k) p') (hok : (p.callers k).outcome (p'.callers k) ≠ .err)
    {id : ID} (h : p.InHand id) : p'.InHand id := by
  have hknows : ∀ {id : ID}, p.Knows id → p'.Knows id := fun h => h.step hinv.sound (.call hstep)
  rcases h with ⟨k', c, hc, rfl⟩ | hk
  · by_cases heq : k' = k
    · subst heq
      rcases hstep.blob_or_idle with hsame | hidle
      · exact Or.inl ⟨k', c, hsame.trans hc, rfl⟩
      · cases hp : p.callers k' with
        | idle =>
          rw [hp] at hc
          cases hc
        | returned c' =>
          have heq : c' = c := by
            rw [hp] at hc
            exact Option.some.inj hc
          subst heq
          exact Or.inr (hknows (hinv.known.callers k' c' (by rw [hp]; rfl)))
        | _ =>
          rw [hp, hidle] at hok
          exact absurd rfl hok
    · exact Or.inl ⟨k', c, by rw [hstep.callers_of_ne (Or.inl rfl) heq]; exact hc, rfl⟩
  · exact Or.inr (hknows hk)

/-- A transfer that starts has its blob in hand, and the others keep theirs. -/
theorem Pipe.InHand.call {k : κ} {t : BlobType} {data : Bytes} {id : ID}
    (hinv : p.Inv env plain Set.univ Set.univ b)
    (hstep : CallStep env p (.call k t data (.withID id)) p') :
    p'.InHand id ∧ ∀ id', p.InHand id' → p'.InHand id' := by
  have hknows : ∀ {id : ID}, p.Knows id → p'.Knows id := fun h => h.step hinv.sound (.call hstep)
  have hne : ∀ k', k' ≠ k → p'.callers k' = p.callers k' := fun k' =>
    hstep.callers_of_ne (Or.inr ⟨t, data, _, rfl⟩)
  cases hstep with
  | call _ _ _ hidle =>
    refine ⟨Or.inl ⟨k, Blob.ofCall env t data (.withID id), by simp [CallPhase.blob], rfl⟩, ?_⟩
    rintro id' (⟨k', c, hc, rfl⟩ | hk)
    · by_cases heq : k' = k
      · rw [heq, hidle] at hc
        cases hc
      · exact Or.inl ⟨k', c, by rw [hne k' heq]; exact hc, rfl⟩
    · exact Or.inr (hknows hk)

namespace Copy

/-- The invariant of a copy to a destination that had the files `b₀`. -/
structure Inv (env : Env) (plain : ID → Bytes) (todo₀ : List (ID × BlobType))
    (snapshots : List (ID × Snapshot)) (b₀ : Backend) (s : Copy κ n) : Prop where
  pipe : s.pipe.Inv env plain Set.univ Set.univ s.backend
  index : s.backend.IndexSound env plain Set.univ Set.univ
  kept : ∀ id, b₀.Indexed Set.univ id → s.backend.Indexed Set.univ id
  phase : s.phase.Inv todo₀ snapshots s.backend s.pipe

variable {b₀ : Backend} {s s' : Copy κ n} {l : CopyEvent κ}

/-- A step of the pack saver or of one of its callers, with the phase that follows. -/
theorem Inv.work {phase phase' : CopyPhase} {l : PipeEvent κ}
    (h : Inv env plain todo₀ snapshots b₀ ⟨phase, b, p⟩) (hl : l.Honest env plain)
    (hstep : Pipe.Step env b p l b' p') (hphase : phase'.Inv todo₀ snapshots b' p') :
    Inv env plain todo₀ snapshots b₀ ⟨phase', b', p'⟩ := by
  have hwrites := h.pipe.sound.writes hstep
  exact ⟨h.pipe.step hl hstep, hwrites.indexSound h.index,
    fun id hid => hwrites.keeps.indexed id (h.kept id hid), hphase⟩

/-- **Every step keeps the invariant of a copy.** -/
theorem Inv.step (htypes : ∀ e ∈ todo₀, e.2 ≠ .padding)
    (hplain : ∀ e ∈ todo₀, ∀ data, src.loadBlob e.1 = some data → data = plain e.1)
    (hsnaps : ∀ e ∈ snapshots, src.backend.snapshots.lookup e.1 = some e.2)
    (h : s.Inv env plain todo₀ snapshots b₀) (hstep : Step src env snapshots s l s') :
    s'.Inv env plain todo₀ snapshots b₀ := by
  cases hstep with
  | @transfer b p p' k id t data todo failed hload hcall =>
    have hmem : (id, t) ∈ todo₀ := h.phase.1 _ List.mem_cons_self
    have hhonest : (PipeEvent.call k t data (.withID id)).Honest env plain :=
      ⟨hplain _ hmem data hload, htypes _ hmem⟩
    obtain ⟨hself, hothers⟩ := Pipe.InHand.call h.pipe hcall
    refine h.work hhonest (.call hcall)
      ⟨fun e he => h.phase.1 e (List.mem_cons_of_mem _ he), fun hfailed e he => ?_⟩
    rcases h.phase.2 hfailed e he with htodo | hhand
    · rcases List.mem_cons.mp htodo with rfl | hrest
      · exact Or.inr hself
      · exact Or.inl hrest
    · exact Or.inr (hothers e.1 hhand)
  | @transferFail b p e todo failed =>
    refine ⟨h.pipe, h.index, h.kept, fun e' he' => h.phase.1 e' (List.mem_cons_of_mem _ he'), ?_⟩
    exact fun hfalse => by cases hfalse
  | caller hcall hok =>
    have hknows : ∀ id, Pipe.Knows _ id → Pipe.Knows _ id := fun id hk =>
      hk.step h.pipe.sound (.call hcall)
    refine h.work (l := .caller _) trivial (.call hcall) (h.phase.mono hknows ?_ .refl rfl)
    exact fun _ _ id hhand => hhand.callStep h.pipe hcall hok
  | @callerErr phase b p p' k hcall herr =>
    have hknows : ∀ id, p.Knows id → p'.Knows id := fun id hk =>
      hk.step h.pipe.sound (.call hcall)
    refine h.work (l := .caller _) trivial (.call hcall) (h.phase.fail.mono hknows ?_ .refl rfl)
    intro todo htodo
    cases phase <;> cases htodo
  | @saver phase b p p' hsaver =>
    have hknows : ∀ id, p.Knows id → p'.Knows id := fun id hk =>
      hk.step h.pipe.sound (.saver hsaver)
    refine h.work (l := .saver) trivial (.saver hsaver) (h.phase.mono hknows ?_ .refl rfl)
    exact fun _ _ id hhand => hhand.of_callers_eq hsaver.frame.1 hknows
  | @worker phase b b' p p' l hworker =>
    have hknows : ∀ id, p.Knows id → p'.Knows id := fun id hk =>
      hk.step h.pipe.sound (.worker hworker)
    have hwrites := h.pipe.sound.writes (.worker hworker)
    obtain ⟨-, -, -, hcallers, -⟩ := hworker.frame
    have hhonest : l.Honest env plain := by cases hworker <;> trivial
    refine h.work hhonest (.worker hworker)
      (h.phase.mono hknows ?_ hwrites.keeps hwrites.snapshots)
    exact fun _ _ id hhand => hhand.of_callers_eq hcallers hknows
  | abort | flushFail | writeFail => exact ⟨h.pipe, h.index, h.kept, fun hfalse => by cases hfalse⟩
  | @drained b p hidle =>
    refine ⟨h.pipe, h.index, h.kept, fun e he => ?_⟩
    rcases (h.phase.2 rfl e he).resolve_left List.not_mem_nil with ⟨k, c, hc, -⟩ | hk
    · rw [hidle k] at hc
      cases hc
    · exact hk
  | @flush b b' p p' l hflush =>
    have hhonest : l.Honest env plain := by cases hflush <;> trivial
    refine h.work hhonest (.flush hflush) fun e he => ?_
    exact (h.phase e he).step h.pipe.sound (.flush hflush)
  | flushed hflush =>
    refine ⟨h.pipe, h.index, h.kept, fun e he => ?_, fun e he => Or.inl he⟩
    exact h.pipe.indexed_of_flush hflush (h.phase e he)
  | @write b p sid listed snap todo hsnap =>
    refine ⟨h.pipe.keeps Backend.keeps_saveSnapshot, h.index, h.kept, h.phase.1, fun e he => ?_⟩
    rw [Backend.saveSnapshot, Table.lookup_insert_eq_ite]
    by_cases heq : e.1 = sid
    · right
      rw [if_pos heq, ← hsnap, ← heq, hsnaps e he]
    · rw [if_neg heq]
      refine (h.phase.2 e he).imp_left fun hmem => ?_
      exact (List.mem_cons.mp hmem).resolve_left fun h => heq (by rw [h])
  | done =>
    refine ⟨h.pipe, h.index, h.kept, fun _ => ⟨h.phase.1, fun e he => ?_⟩⟩
    exact (h.phase.2 e he).resolve_left List.not_mem_nil

end Copy

end Inv

/-! ## What a copy leaves in the destination -/

/-- The blob is listed in an index file, in a pack that exists. -/
def Backend.Persisted (b : Backend) (id : ID) : Prop :=
  ∃ fid f l, b.index.lookup fid = some f ∧ (id, l) ∈ f.entries ∧ (b.packs.lookup l.packId).isSome

open Classical in
/-- The bytes behind the IDs: those that the destination has, or else those of the source. -/
noncomputable def CopySource.plainOver (src : CopySource) (plain : ID → Bytes) (b : Backend)
  (id : ID) :
    Bytes :=
  if b.Indexed Set.univ id then plain id else (src.loadBlob id).getD []

section Copied

variable {κ : Type} {n : Nat} {src : CopySource} {env : Env} {plain : ID → Bytes}
  {snapshots : List (ID × Snapshot)} {b₀ : Backend} {num : b₀.Instances}

theorem Backend.Consistent.plainOver (h : b₀.Consistent env plain) :
    b₀.Consistent env (src.plainOver plain b₀) := by
  intro fid f hf e he
  obtain ⟨data, hdata, hslice⟩ := h fid f hf e he
  have hsame : src.plainOver plain b₀ e.1 = plain e.1 := if_pos ⟨fid, f, e.2, trivial, hf, he⟩
  obtain ⟨enc, hat, hne, hdecode⟩ := hslice
  refine ⟨data, hdata, enc, hat, hne, ?_⟩
  rw [hdecode]
  exact congrArg some hsame.symm

theorem contains_reload_iff {id : ID} :
    (b₀.reloadMasterIndex env.toIndexEnv num).contains env.toIndexEnv id = true ↔
      b₀.Indexed Set.univ id := by
  rw [MasterIndex.contains, Backend.pendingBlobs_reload, Bool.or_eq_true,
    Backend.wf_reload.indexContains_iff]
  simp only [Finset.notMem_empty, decide_false, Bool.false_eq_true, false_or,
    Backend.mem_entries_reload, Backend.Indexed, Set.mem_univ, true_and]
  exact ⟨fun ⟨l, fid, f, hf, hl⟩ => ⟨fid, f, l, hf, hl⟩, fun ⟨fid, f, l, hf, hl⟩ => ⟨l, fid, f, hf,
    hl⟩⟩

theorem mem_toCopy_iff {blobList : List (ID × BlobType)} {e : ID × BlobType} :
    e ∈ toCopy env.toIndexEnv (b₀.reloadMasterIndex env.toIndexEnv num) blobList ↔
      e ∈ blobList ∧ ¬ b₀.Indexed Set.univ e.1 := by
  rw [toCopy, List.mem_filter, Bool.not_eq_true', ← Bool.not_eq_true, contains_reload_iff]

/-- The trees of a snapshot that can all be loaded are followed, so that everything is found. -/
theorem found_of_reads {root : ID}
    (h : ∀ t, TreeOf src.codec src.contents root t → (src.loadFromRepo t).isSome) {id : ID}
    (hid : Closure src.codec src.contents root id) : Found src.loadFromRepo root id := by
  have hnodes : ∀ {t : ID} {node : Node}, TreeOf src.codec src.contents root t →
      NodeOf src.codec src.contents t node →
      ∃ nodes, src.loadFromRepo t = some nodes ∧ node ∈ nodes := by
    intro t node ht hnode
    obtain ⟨nodes, hload⟩ := Option.isSome_iff_exists.mp (h t ht)
    refine ⟨nodes, hload, (nodeOf_iff_of_loadTree ?_ node).mp hnode⟩
    unfold CopySource.loadFromRepo at hload
    split at hload
    · exact hload
    · cases hload
  have htrees : ∀ {t : ID}, TreeOf src.codec src.contents root t →
      Relation.ReflTransGen (LoadedSubtree src.loadFromRepo) root t := by
    intro t ht
    induction ht with
    | root => exact .refl
    | sub ht hnode hsub ih =>
      obtain ⟨nodes, hload, hmem⟩ := hnodes ht hnode
      exact .tail ih ⟨nodes, hload, _, hmem, hsub⟩
  cases hid with
  | tree ht => exact .tree (htrees ht)
  | blob ht hnode hblobs hmem =>
    obtain ⟨nodes, hload, hnode'⟩ := hnodes ht hnode
    exact .blob (htrees ht) ⟨nodes, hload, _, hnode', by rw [hblobs]; exact hmem⟩

theorem Copy.Inv.start (hb : b₀.Consistent env plain) :
    (Copy.start src env snapshots b₀ num : Copy κ n).Inv env plain
      (toCopy env.toIndexEnv (b₀.reloadMasterIndex env.toIndexEnv num) (src.collectBlobs snapshots))
      snapshots b₀ := by
  obtain ⟨hpipe, hindex⟩ := @SaveSystem.Inv.start κ n _ _ _ num hb
  refine ⟨hpipe, hindex, fun id hid => hid, ?_⟩
  unfold Copy.start
  dsimp only
  cases toCopy env.toIndexEnv (b₀.reloadMasterIndex env.toIndexEnv num) (src.collectBlobs snapshots)
    with
  | nil => exact ⟨fun e he => absurd he List.not_mem_nil, fun e he => Or.inl he⟩
  | cons e todo => exact ⟨fun e he => he, fun _ e he => Or.inl he⟩

variable [DecidableEq κ]

/-- The invariant holds in every state of a copy to a consistent repository. -/
theorem Copy.exists_inv (hb : b₀.Consistent env plain)
    (hsnaps : ∀ e ∈ snapshots, src.backend.snapshots.lookup e.1 = some e.2) {s : Copy κ n}
    {ls : List (CopyEvent κ)}
    (hrun : Run (Copy.Step src env snapshots) (Copy.start src env snapshots b₀ num) ls s) :
    ∃ plain', s.Inv env plain'
      (toCopy env.toIndexEnv (b₀.reloadMasterIndex env.toIndexEnv num) (src.collectBlobs snapshots))
      snapshots b₀ := by
  have hwf : CopyWalk.WF ⟨(snapshots.map fun e => e.2.tree).reverse, ∅, []⟩ :=
    ⟨fun id hid => absurd hid (Finset.notMem_empty id), fun e he => absurd he List.not_mem_nil⟩
  refine ⟨src.plainOver plain b₀, hrun.invariant (fun _ _ _ h hstep => h.step ?_ ?_ hsnaps hstep)
    (.start hb.plainOver)⟩
  · intro e he
    exact (collectTrees_spec ∅ _ hwf).2 e (mem_toCopy_iff.mp he).1
  · intro e he data hdata
    rw [CopySource.plainOver, if_neg (mem_toCopy_iff.mp he).2, hdata, Option.getD_some]

/-- What the index files of a consistent repository list is persisted. -/
theorem Backend.IndexSound.persisted {plain : ID → Bytes} {b : Backend}
    (h : b.IndexSound env plain Set.univ Set.univ) {id : ID} (hid : b.Indexed Set.univ id) :
    b.Persisted id := by
  obtain ⟨fid, f, l, -, hf, hl⟩ := hid
  obtain ⟨-, data, hdata, -⟩ := h fid f trivial hf _ hl
  exact ⟨fid, f, l, hf, hl, by rw [hdata]; rfl⟩

/-- **A copy is complete before it writes a snapshot.** In every run to a consistent repository in
which everything that can be reached from the snapshots in the source is found through trees that
could be loaded, or is in the destination already: whenever a snapshot is written, everything that
can be reached from the snapshots is in the persisted index of the destination, in packs that exist,
and so it is when the copy returns `Ok`, with all snapshots written. -/
theorem copied_snapshots_are_complete {s : Copy κ n} {ls : List (CopyEvent κ)}
    (hb : b₀.Consistent env plain)
    (hsnaps : ∀ e ∈ snapshots, src.backend.snapshots.lookup e.1 = some e.2)
    (hfound : ∀ e ∈ snapshots, ∀ id, Closure src.codec src.contents e.2.tree id →
      Found src.loadFromRepo e.2.tree id ∨ b₀.Indexed Set.univ id)
    (hrun : Run (Copy.Step src env snapshots) (Copy.start src env snapshots b₀ num) ls s) :
    (s.phase = .finished true → ∀ e ∈ snapshots, s.backend.snapshots.lookup e.1 = some e.2 ∧
      ∀ id, Closure src.codec src.contents e.2.tree id → s.backend.Persisted id) ∧
    ∀ sid s', Copy.Step src env snapshots s (.saveSnapshot sid) s' →
      ∀ e ∈ snapshots, ∀ id, Closure src.codec src.contents e.2.tree id → s.backend.Persisted id := by
  obtain ⟨plain', hinv⟩ := Copy.exists_inv hb hsnaps hrun
  -- once the copied blobs are listed, everything is
  have hall : (∀ e ∈ toCopy env.toIndexEnv (b₀.reloadMasterIndex env.toIndexEnv num)
      (src.collectBlobs snapshots), s.backend.Indexed Set.univ e.1) → ∀ e ∈ snapshots, ∀ id,
      Closure src.codec src.contents e.2.tree id → s.backend.Persisted id := by
    intro hcopied e he id hid
    refine hinv.index.persisted ?_
    by_cases hlisted : b₀.Indexed Set.univ id
    · exact hinv.kept id hlisted
    · have hmem := mem_collectBlobs_of_found he ((hfound e he id hid).resolve_right hlisted)
      obtain ⟨x, hx, rfl⟩ := List.mem_map.mp hmem
      exact hcopied x (mem_toCopy_iff.mpr ⟨hx, hlisted⟩)
  constructor
  · intro hphase e he
    have hend := hinv.phase
    rw [hphase] at hend
    exact ⟨(hend rfl).2 e he, hall (hend rfl).1 e he⟩
  · intro sid s' hstep
    have hwriting := hinv.phase
    cases hstep with
    | write hsnap => exact hall hwriting.1

end Copied

section Sample

open Gc (gcNode gcCodec gcIndex plainInstances orphanBackend)

/-- A repository with a snapshot, whose tree 1 has a file with the blob 5. -/
def copySource (reads : Bool) : CopySource :=
  ⟨sampleEnv, gcCodec, orphanBackend, gcIndex orphanBackend, fun _ => reads⟩

/-- A repository with the tree alone. -/
def treeBackend : Backend :=
  ⟨AList.insert 20 [1, 1] ∅, AList.insert 31 ⟨[⟨20, [⟨1, .tree, 0, 2, 1⟩]⟩]⟩ ∅, ∅, ∅⟩

/-- The node of the tree is the one file. -/
theorem nodeOf_copySource {reads : Bool} {node : Node} :
    NodeOf gcCodec (copySource reads).contents 1 node ↔ node = gcNode := by
  have hload : loadTree sampleEnv gcCodec orphanBackend (gcIndex orphanBackend) 1 = some [gcNode] := by
    decide
  exact (nodeOf_iff_of_loadTree hload node).trans List.mem_singleton

/-- When there is nothing to transfer, a copy of one snapshot writes it and returns. -/
theorem run_of_toCopy_nil {reads : Bool} {b : Backend}
    (h : toCopy sampleEnv.toIndexEnv (gcIndex b)
    (CopySource.collectBlobs (copySource reads) [(50, ⟨1⟩)]) = []) :
    Run (Copy.Step (copySource reads) sampleEnv [(50, ⟨1⟩)])
      (Copy.start (copySource reads) sampleEnv [(50, ⟨1⟩)] b (plainInstances b) : Copy Unit 4)
      [.saveSnapshot 50, .command]
      ⟨.finished true, b.saveSnapshot 50 ⟨1⟩, .init (gcIndex b)⟩ := by
  have hstart : (Copy.start (copySource reads) sampleEnv [(50, ⟨1⟩)] b (plainInstances b) :
      Copy Unit 4) =
      ⟨.writing [(50, ⟨1⟩)], b, .init (gcIndex b)⟩ := by
    unfold Copy.start
    dsimp only
    rw [show b.reloadMasterIndex sampleEnv.toIndexEnv (plainInstances b) = gcIndex b from rfl, h]
  have h₀ : Run (Copy.Step (copySource reads) sampleEnv [(50, ⟨1⟩)])
      (Copy.start (copySource reads) sampleEnv [(50, ⟨1⟩)] b (plainInstances b) : Copy Unit 4) []
      ⟨.writing [(50, ⟨1⟩)], b, .init (gcIndex b)⟩ := by
    rw [hstart]
    exact .nil
  exact (h₀.snoc (.write rfl)).snoc .done

theorem collectBlobs_unread :
    CopySource.collectBlobs (copySource false) [(50, ⟨1⟩)] = [(1, .tree)] := by
  have hstack : ([(50, ⟨1⟩)].map fun e : ID × Snapshot => e.2.tree).reverse = [1] := rfl
  have htree : CopyWalk.addTree (copySource false).loadFromRepo ⟨[], ∅, []⟩ 1 =
      ⟨[], ∅, [(1, .tree)]⟩ := rfl
  rw [CopySource.collectBlobs, hstack, collectTrees]
  simp only [Finset.notMem_empty, dite_false, htree]
  rw [collectTrees]

theorem collectBlobs_read :
    CopySource.collectBlobs (copySource true) [(50, ⟨1⟩)] = [(1, .tree), (5, .data)] := by
  have hstack : ([(50, ⟨1⟩)].map fun e : ID × Snapshot => e.2.tree).reverse = [1] := rfl
  have hload : (copySource true).loadFromRepo 1 = some [gcNode] := by decide
  have htree : CopyWalk.addTree (copySource true).loadFromRepo ⟨[], ∅, []⟩ 1 =
      ⟨[], {5}, [(1, .tree), (5, .data)]⟩ := by
    rw [CopyWalk.addTree, hload]
    rfl
  rw [CopySource.collectBlobs, hstack, collectTrees]
  simp only [Finset.notMem_empty, dite_false, htree]
  rw [collectTrees]

/-- The destination does not have the blob of the file. -/
theorem not_persisted_treeBackend : ¬ treeBackend.Persisted 5 := by
  rintro ⟨fid, f, l, hf, hl, -⟩
  have hfile : f = ⟨[⟨20, [⟨1, .tree, 0, 2, 1⟩]⟩]⟩ := by
    have hlook : ((∅ : Table ID IndexFile).insert 31 ⟨[⟨20, [⟨1, .tree, 0, 2, 1⟩]⟩]⟩).lookup fid =
        some f := hf
    rw [Table.lookup_insert_eq_ite] at hlook
    split at hlook
    · exact (Option.some.inj hlook).symm
    · cases hlook
  subst hfile
  have hentries : (5, l) ∈ [((1 : ID), (⟨20, 0, 2, 1, .tree⟩ : BlobLocator))] := hl
  cases List.mem_singleton.mp hentries

/-- **The tree cannot be read during the walk, and the destination has it.** The snapshot is written
and the copy returns `Ok`, and the destination does not have the blob of the file. -/
theorem copied_without_children : treeBackend.Consistent sampleEnv samplePlain ∧
    ∃ ls, ∃ s : Copy Unit 4, Run (Copy.Step (copySource false) sampleEnv [(50, ⟨1⟩)])
        (Copy.start (copySource false) sampleEnv [(50, ⟨1⟩)] treeBackend (plainInstances treeBackend))
        ls s ∧
      s.phase = .finished true ∧ Closure gcCodec (copySource false).contents 1 5 ∧
      ¬ s.backend.Persisted 5 := by
  have hnil : toCopy sampleEnv.toIndexEnv (gcIndex treeBackend)
      (CopySource.collectBlobs (copySource false) [(50, ⟨1⟩)]) = [] := by
    rw [collectBlobs_unread]
    decide
  refine ⟨Gc.consistent_of_slices (by decide), _, _, run_of_toCopy_nil hnil, rfl,
    .blob .root (nodeOf_copySource.mpr rfl) rfl (List.mem_singleton_self _),
    not_persisted_treeBackend⟩

/-- The same snapshot when the tree is read: the blob of the file is transferred, and then the
snapshot is written. -/
theorem exists_run_transfer : ∃ ls, ∃ s : Copy Unit 1,
    Run (Copy.Step (copySource true) sampleEnv [(50, ⟨1⟩)])
      (Copy.start (copySource true) sampleEnv [(50, ⟨1⟩)] treeBackend (plainInstances treeBackend))
      ls s ∧ s.phase = .finished true := by
  have hstart : (Copy.start (copySource true) sampleEnv [(50, ⟨1⟩)] treeBackend
      (plainInstances treeBackend) : Copy Unit 1) =
      ⟨.transferring [(5, .data)] false, treeBackend, .init (gcIndex treeBackend)⟩ := by
    have hcopy : toCopy sampleEnv.toIndexEnv (gcIndex treeBackend)
        (CopySource.collectBlobs (copySource true) [(50, ⟨1⟩)]) = [(5, .data)] := by
      rw [collectBlobs_read]
      decide
    unfold Copy.start
    dsimp only
    rw [show treeBackend.reloadMasterIndex sampleEnv.toIndexEnv (plainInstances treeBackend) =
      gcIndex treeBackend from rfl, hcopy]
  rw [hstart]
  have h₀ : Run (Copy.Step (copySource true) sampleEnv [(50, ⟨1⟩)])
      (⟨.transferring [(5, .data)] false, treeBackend, .init (gcIndex treeBackend)⟩ : Copy Unit 1) [] _ :=
    .nil
  -- the call
  have h₁ := h₀.snoc (.transfer (k := ()) rfl (.call _ _ _ rfl))
  have h₂ := h₁.snoc (.caller (.look (k := ())) nofun)
  have h₃ := h₂.snoc (.caller (.look (k := ())) nofun)
  have h₄ := h₃.snoc (.caller (.clone (k := ()) sampleNonce rfl rfl rfl) nofun)
  have h₅ := h₄.snoc (.caller (.send (k := ()) rfl rfl) nofun)
  have h₆ := h₅.snoc (.caller (.look (k := ())) nofun)
  have h₇ := h₆.snoc (.caller (.look (k := ())) nofun)
  have h₈ := h₇.snoc (.caller (.insert (k := ()) rfl) nofun)
  have h₉ := h₈.snoc (.caller (.ret (k := ()) rfl) nofun)
  have d := h₉.snoc (.drained fun k => match k with | () => rfl)
  -- the pack saver stores the blob
  have p₁ := d.snoc (.flush (.take rfl))
  have p₂ := p₁.snoc (.saver (.start rfl))
  have p₃ := p₂.snoc (.saver (.add rfl rfl rfl rfl))
  have p₄ := p₃.snoc (.saver (.close rfl rfl rfl fun _ => rfl))
  have p₅ := p₄.snoc (.saver (.take rfl (by decide) rfl))
  have p₆ := p₅.snoc (.saver (.send rfl))
  have p₇ := p₆.snoc (.saver (.dispatchEmpty rfl rfl))
  have w₁ := p₇.snoc (.worker (.recv (w := 0) rfl rfl))
  have w₂ := w₁.snoc (.worker (.finalize (w := 0) sampleNonce samplePadding rfl rfl rfl))
  have w₃ := w₂.snoc (.worker (.upload (w := 0) rfl ⟨rfl, rfl, by decide⟩))
  have w₄ := w₃.snoc (.worker (.register (w := 0) false rfl))
  have w₅ := w₄.snoc (.worker (.recycle (w := 0) rfl rfl))
  have w₆ := w₅.snoc (.worker (.closed (w := 0) rfl rfl rfl))
  have w₇ := w₆.snoc (.saver (.join rfl fun w => match w with | ⟨0, _⟩ => rfl))
  have f₁ := w₇.snoc (.flush (.joinOk rfl rfl))
  have f₂ := f₁.snoc (.flush (.persist 9 rfl ⟨rfl, rfl, by decide⟩))
  have f₃ := f₂.snoc (.flush (.mark rfl))
  have f₄ := f₃.snoc (.flush (.done rfl))
  -- the snapshot follows
  have f₅ := f₄.snoc (.flushed rfl)
  have f₆ := f₅.snoc (.write rfl)
  exact ⟨_, _, f₆.snoc .done, rfl⟩

/-- **A transfer.** The destination has the tree and not the blob of the file; when the copy returns,
it has both. -/
theorem copied_with_children : ¬ treeBackend.Persisted 5 ∧ ∃ s : Copy Unit 1,
    s.phase = .finished true ∧ s.backend.snapshots.lookup 50 = some ⟨1⟩ ∧ s.backend.Persisted 1 ∧
    s.backend.Persisted 5 := by
  obtain ⟨ls, s, hrun, hphase⟩ := exists_run_transfer
  have hroot : ∀ t, TreeOf gcCodec (copySource true).contents 1 t → t = 1 := by
    intro t ht
    induction ht with
    | root => rfl
    | sub ht hnode hsub ih =>
      subst ih
      rw [nodeOf_copySource.mp hnode] at hsub
      cases hsub
  have hcopied := (@copied_snapshots_are_complete _ _ (copySource true) sampleEnv samplePlain
    [(50, ⟨1⟩)] _ _ _ _ _ (Gc.consistent_of_slices (by decide))
    (fun e he => by rw [List.mem_singleton.mp he]; rfl)
    (fun e he id hid => by
      rw [List.mem_singleton.mp he] at hid ⊢
      refine Or.inl (found_of_reads (fun t ht => ?_) hid)
      rw [hroot t ht]
      decide)
    hrun).1 hphase _ (List.mem_singleton_self _)
  exact ⟨not_persisted_treeBackend, s, hphase, hcopied.1, hcopied.2 1 (.tree .root),
    hcopied.2 5 (.blob .root (nodeOf_copySource.mpr rfl) rfl (List.mem_singleton_self _))⟩

end Sample

end Mapache
