import Mapache.Fs.Tree

/-!
# The tree serializer

`archiver/tree_serializer.rs`: the directories of a snapshot are built bottom-up. A directory waits
in `pendingTrees` until it has as many children as it expects; then its tree is saved and its node,
with the ID of the tree, becomes a child of its parent. Saving a tree goes through the pack
pipeline, so `finalize_if_complete` is cut at the call into `takeComplete`, which takes a complete
directory out of the map, and `resume`, which goes on with the ID of the saved tree.

`TreeSerializer.All P` says that every node in the map satisfies `P`; each piece keeps it.
-/

set_option autoImplicit false

namespace Mapache

open Lib

/-- The number of children that a directory waits for. -/
inductive ExpectedChildren where
  | known (count : Nat)
  | unknown
  deriving DecidableEq

/-- A directory that is being built. -/
structure PendingTree where
  numExpectedChildren : ExpectedChildren
  node : Option Node
  children : List Node

namespace PendingTree

/-- The directory still waits for children. -/
def isPending (tree : PendingTree) : Bool :=
  match tree.numExpectedChildren with
  | .unknown => true
  | .known count => tree.children.length < count

/-- Two neighbours have the same name. -/
def hasAdjacentDuplicate : List Node → Bool
  | a :: b :: nodes => a.name = b.name || hasAdjacentDuplicate (b :: nodes)
  | _ => false

/-- The checks of `finalize_and_save`. -/
def isValid (tree : PendingTree) : Bool :=
  (match tree.numExpectedChildren with
    | .known count => tree.children.length = count
    | .unknown => true) && !hasAdjacentDuplicate tree.children

end PendingTree

/-- A node of the stream with the number of children that follow. -/
structure StreamNode where
  node : Node
  numChildren : Nat

/-- The serializer. -/
structure TreeSerializer where
  pendingTrees : Table Path PendingTree
  snapshotRootPath : Path
  rootTreeId : Option ID

namespace TreeSerializer

/-- `init_pending_trees`, from the counts that `get_intermediate_paths` found. -/
def initPendingTrees (root : Path) (counts : Nat × List (Path × Nat)) : Table Path PendingTree :=
  counts.2.foldl
    (fun trees c => if trees.lookup c.1 = none then trees.insert c.1 ⟨.known c.2, none, []⟩ else trees)
    ((∅ : Table Path PendingTree).insert root ⟨.known counts.1, none, []⟩)

/-- `TreeSerializer::new`. -/
def new (root : Path) (counts : Nat × List (Path × Nat)) : TreeSerializer :=
  ⟨initPendingTrees root counts, root, none⟩

/-- Looking up a directory of the initial map: the fold keeps what is there, and adds the
directories of the list that are not. -/
theorem lookup_foldl_insert (cs : List (Path × Nat)) (trees : Table Path PendingTree) (dir : Path) :
    (cs.foldl (fun trees c => if trees.lookup c.1 = none then trees.insert c.1 ⟨.known c.2, none, []⟩
      else trees) trees).lookup dir =
      (trees.lookup dir).or ((cs.find? fun c => c.1 = dir).map fun c => ⟨.known c.2, none, []⟩) := by
  induction cs generalizing trees with
  | nil => simp
  | cons c cs ih =>
    rw [List.foldl_cons, ih]
    by_cases hdir : c.1 = dir
    · subst hdir
      cases hl : trees.lookup c.1 with
      | none => simp [AList.lookup_insert]
      | some tree => simp [hl]
    · rw [List.find?_cons_of_neg (by simpa using hdir)]
      split
      · rw [AList.lookup_insert_ne (Ne.symm hdir)]
      · rfl

theorem lookup_initPendingTrees_root (root : Path) (counts : Nat × List (Path × Nat)) :
    (initPendingTrees root counts).lookup root = some ⟨.known counts.1, none, []⟩ := by
  rw [initPendingTrees, lookup_foldl_insert, AList.lookup_insert, Option.some_or]

theorem lookup_initPendingTrees {root dir : Path} {counts : Nat × List (Path × Nat)} {count : Nat}
    (hroot : dir ≠ root) (hmem : (dir, count) ∈ counts.2)
    (huniq : ∀ count', (dir, count') ∈ counts.2 → count' = count) :
    (initPendingTrees root counts).lookup dir = some ⟨.known count, none, []⟩ := by
  rw [initPendingTrees, lookup_foldl_insert, AList.lookup_insert_ne hroot]
  cases hfind : counts.2.find? fun c => c.1 = dir with
  | none => exact absurd (decide_eq_true rfl) (List.find?_eq_none.mp hfind _ hmem)
  | some c =>
    have hfound := List.find?_some hfind
    have hc : c.1 = dir := of_decide_eq_true hfound
    have hcount : c.2 = count := huniq c.2 (hc ▸ List.mem_of_find?_eq_some hfind)
    rw [Option.map_some, hcount]
    rfl

theorem lookup_initPendingTrees_none {root dir : Path} {counts : Nat × List (Path × Nat)}
    (hroot : dir ≠ root) (hmem : ∀ count, (dir, count) ∉ counts.2) :
    (initPendingTrees root counts).lookup dir = none := by
  rw [initPendingTrees, lookup_foldl_insert, AList.lookup_insert_ne hroot]
  cases hfind : counts.2.find? fun c => c.1 = dir with
  | none => rfl
  | some c =>
    have hfound := List.find?_some hfind
    have hc : c.1 = dir := of_decide_eq_true hfound
    exact absurd (hc ▸ List.mem_of_find?_eq_some hfind) (hmem c.2)

/-- The entry of a path, or the one that `or_insert_with` puts there. -/
def entry (ts : TreeSerializer) (path : Path) : PendingTree :=
  (ts.pendingTrees.lookup path).getD ⟨.unknown, none, []⟩

def insertFinalizedNode (ts : TreeSerializer) (parent : Path) (node : Node) : TreeSerializer :=
  { ts with
    pendingTrees := ts.pendingTrees.insert parent
      { ts.entry parent with children := (ts.entry parent).children ++ [node] } }

/-- `handle_processed_item` up to `finalize_if_complete`, with the directory to look at next. -/
def handleProcessedItem (ts : TreeSerializer) (path : Path) (item : StreamNode) :
    Option (TreeSerializer × Path) :=
  if item.node.isDir then
    some ({ ts with
      pendingTrees := ts.pendingTrees.insert path
        { ts.entry path with
          node := some item.node
          numExpectedChildren := .known item.numChildren } }, path)
  else
    (extractParent path).map fun parent => (ts.insertFinalizedNode parent item.node, parent)

/-- The first half of `finalize_if_complete`: take a complete directory out of the map. -/
def takeComplete (ts : TreeSerializer) (path : Path) : Option (TreeSerializer × PendingTree) :=
  match ts.pendingTrees.lookup path with
  | some tree =>
    if tree.isPending then none
    else some ({ ts with pendingTrees := ts.pendingTrees.erase path }, tree)
  | none => none

/-- The node of a saved directory. One that the stream did not emit gets a synthetic node. -/
def completedDirNode (path : Path) (tree : PendingTree) (treeId : ID) : Node :=
  { tree.node.getD
      { name := ((fileName path).map toStringLossy).getD "", nodeType := .directory } with
    tree := some treeId }

/-- The second half of `finalize_if_complete`: the tree of the directory is saved. The result is the
directory to look at next, if there is one, or an error when the directory has no parent. -/
def resume (ts : TreeSerializer) (path : Path) (tree : PendingTree) (treeId : ID) :
    Option (TreeSerializer × Option Path) :=
  if path = ts.snapshotRootPath then some ({ ts with rootTreeId := some treeId }, none)
  else
    let node := completedDirNode path tree treeId
    match extractParent path with
    | some parent => some (ts.insertFinalizedNode parent node, some parent)
    | none =>
      if ts.snapshotRootPath = [] then some (ts.insertFinalizedNode [] node, some []) else none

end TreeSerializer

/-! ## The nodes in the map -/

/-- Every node of the directory satisfies `P`. -/
structure PendingTree.All (P : Node → Prop) (tree : PendingTree) : Prop where
  node : ∀ n, tree.node = some n → P n
  children : ∀ n ∈ tree.children, P n

namespace TreeSerializer

/-- Every node in the map satisfies `P`. -/
def All (P : Node → Prop) (ts : TreeSerializer) : Prop :=
  ∀ path tree, ts.pendingTrees.lookup path = some tree → tree.All P

variable {P Q : Node → Prop} {ts ts' : TreeSerializer} {path : Path} {tree : PendingTree} {node : Node}

theorem All.mono (h : ts.All P) (hPQ : ∀ n, P n → Q n) : ts.All Q := fun path tree hl =>
  ⟨fun n hn => hPQ n ((h path tree hl).node n hn),
    fun n hn => hPQ n ((h path tree hl).children n hn)⟩

theorem All.entry (h : ts.All P) (path : Path) : (ts.entry path).All P := by
  unfold TreeSerializer.entry
  cases hl : ts.pendingTrees.lookup path with
  | none => exact ⟨fun n hn => (by cases hn), fun n hn => (by cases hn)⟩
  | some tree => exact h path tree hl

/-- Only the entry of one path changes. -/
theorem All.insert (h : ts.All P) (htree : tree.All P) :
    All P { ts with pendingTrees := ts.pendingTrees.insert path tree } := by
  intro path' tree' hl
  rw [Table.lookup_insert_eq_ite] at hl
  split at hl
  · cases hl
    exact htree
  · exact h path' tree' hl

theorem All.insertFinalizedNode (h : ts.All P) (hnode : P node) :
    (ts.insertFinalizedNode path node).All P := by
  refine h.insert ⟨(h.entry path).node, fun n hn => ?_⟩
  rcases List.mem_append.mp hn with hold | hnew
  · exact (h.entry path).children n hold
  · rw [List.mem_singleton.mp hnew]
    exact hnode

theorem All.new (root : Path) (counts : Nat × List (Path × Nat)) : (new root counts).All P := by
  have hempty : ∀ e, PendingTree.All P ⟨e, none, []⟩ := fun e =>
    ⟨fun n hn => (by cases hn), fun n hn => (by cases hn)⟩
  -- every directory of the initial map is empty
  have hfold : ∀ (cs : List (Path × Nat)) (trees : Table Path PendingTree),
      All P ⟨trees, root, none⟩ →
      All P ⟨cs.foldl (fun trees c => if trees.lookup c.1 = none then
        trees.insert c.1 ⟨.known c.2, none, []⟩ else trees) trees, root, none⟩ := by
    intro cs
    induction cs with
    | nil => exact fun _ h => h
    | cons c cs ih =>
      intro trees h
      rw [List.foldl_cons]
      split
      · exact ih _ (h.insert (hempty _))
      · exact ih _ h
  have hnil : All P ⟨∅, root, none⟩ := by
    intro path tree hl
    cases hl
  exact hfold counts.2 _ (hnil.insert (hempty _))

theorem All.handleProcessedItem {item : StreamNode} {next : Path} (h : ts.All P)
    (hitem : P item.node) (hstep : ts.handleProcessedItem path item = some (ts', next)) :
    ts'.All P := by
  unfold TreeSerializer.handleProcessedItem at hstep
  split at hstep
  · cases hstep
    refine h.insert ⟨fun n hn => ?_, (h.entry path).children⟩
    cases hn
    exact hitem
  · rw [Option.map_eq_some_iff] at hstep
    obtain ⟨parent, _, heq⟩ := hstep
    cases heq
    exact h.insertFinalizedNode hitem

theorem All.takeComplete (h : ts.All P) (hstep : ts.takeComplete path = some (ts', tree)) :
    ts'.All P ∧ tree.All P := by
  unfold TreeSerializer.takeComplete at hstep
  split at hstep
  · rename_i tree' hl
    split at hstep
    · cases hstep
    · cases hstep
      refine ⟨?_, h path _ hl⟩
      intro path' tree' hl'
      rw [Table.lookup_erase_eq_ite] at hl'
      split at hl'
      · cases hl'
      · exact h path' tree' hl'
  · cases hstep

/-- The node of a saved directory goes to its parent. -/
theorem All.resume {treeId : ID} {next : Option Path} (h : ts.All P)
    (hnode : P (completedDirNode path tree treeId))
    (hstep : ts.resume path tree treeId = some (ts', next)) :
    ts'.All P ∧ (ts'.rootTreeId = ts.rootTreeId ∨ ts'.rootTreeId = some treeId) := by
  unfold TreeSerializer.resume at hstep
  split at hstep
  · cases hstep
    exact ⟨h, Or.inr rfl⟩
  · cases hparent : extractParent path with
    | some parent =>
      simp only [hparent] at hstep
      cases hstep
      exact ⟨h.insertFinalizedNode hnode, Or.inl rfl⟩
    | none =>
      simp only [hparent] at hstep
      split at hstep
      · cases hstep
        exact ⟨h.insertFinalizedNode hnode, Or.inl rfl⟩
      · cases hstep

theorem rootTreeId_handleProcessedItem {item : StreamNode} {next : Path}
    (hstep : ts.handleProcessedItem path item = some (ts', next)) :
    ts'.rootTreeId = ts.rootTreeId := by
  unfold TreeSerializer.handleProcessedItem at hstep
  split at hstep
  · cases hstep
    rfl
  · rw [Option.map_eq_some_iff] at hstep
    obtain ⟨parent, _, heq⟩ := hstep
    cases heq
    rfl

theorem rootTreeId_takeComplete (hstep : ts.takeComplete path = some (ts', tree)) :
    ts'.rootTreeId = ts.rootTreeId := by
  unfold TreeSerializer.takeComplete at hstep
  split at hstep
  · split at hstep
    · cases hstep
    · cases hstep
      rfl
  · cases hstep

end TreeSerializer

end Mapache
