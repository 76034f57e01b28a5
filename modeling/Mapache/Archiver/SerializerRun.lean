import Mapache.Archiver.SourceStream

/-!
# The tree serializer on a consistent stream

`handle_processed_item` with the whole recursion of `finalize_if_complete`, then `finalize_root`.
Saving a tree is a function of its nodes here: they are sorted by name, serialized and hashed.

`SourceStream.treeOf` is the tree that a stream describes when `own` says which node each path has,
and `SourceStream.Inv` is the serializer after some of the items have arrived: an unfinished
directory has the nodes of its finished children. `Inv.finalizeIfComplete` is the step up the path
of an item.
-/

set_option autoImplicit false

namespace Mapache

open Lib

/-! ## The serializer -/

/-- `sort_unstable_by` on the names of nodes: nodes with equal names may come in any order. -/
structure NameSort where
  sort : List Node → List Node
  perm : ∀ nodes, (sort nodes).Perm nodes
  sorted : ∀ nodes, (sort nodes).Pairwise fun a b => a.name ≤ b.name

/-- What saving a tree uses: the sort, the serialization and the content hash. -/
structure TreeEnv extends NameSort where
  codec : TreeCodec
  fromContent : Bytes → ID

/-- `Tree::save_to_store`. -/
def TreeEnv.saveToStore (env : TreeEnv) (nodes : List Node) : Option ID :=
  (env.codec.toVec (env.sort nodes)).map env.fromContent

/-- Nodes with distinct names are stored in one order. -/
theorem TreeEnv.saveToStore_perm (env : TreeEnv) {nodes nodes' : List Node} (h : nodes.Perm nodes')
    (hnodup : (nodes.map Node.name).Nodup) : env.saveToStore nodes = env.saveToStore nodes' := by
  have hsort : env.sort nodes = env.sort nodes' := by
    have hperm : (env.sort nodes).Perm (env.sort nodes') :=
      ((env.perm nodes).trans h).trans (env.perm nodes').symm
    refine hperm.eq_of_pairwise ?_ (env.sorted nodes) (env.sorted nodes')
    -- two nodes of the same name are the same
    intro a b ha hb hab hba
    refine List.inj_on_of_nodup_map hnodup ((env.perm nodes).mem_iff.mp ha) ?_ (le_antisymm hab hba)
    exact h.mem_iff.mpr ((env.perm nodes').mem_iff.mp hb)
  rw [TreeEnv.saveToStore, TreeEnv.saveToStore, hsort]

namespace TreeSerializer

/-- `finalize_if_complete`: save the directory when it is complete, and go on with its parent. The
recursion goes up the path, so its length is fuel enough. -/
def finalizeIfComplete (env : TreeEnv) : Nat → TreeSerializer → Path → Option TreeSerializer
  | 0, ts, _ => some ts
  | fuel + 1, ts, path =>
    match ts.takeComplete path with
    | none => some ts
    | some (ts', tree) =>
      if tree.isValid then
        match env.saveToStore tree.children with
        | none => none
        | some treeId =>
          match ts'.resume path tree treeId with
          | none => none
          | some (ts'', none) => some ts''
          | some (ts'', some next) => finalizeIfComplete env fuel ts'' next
      else none

/-- `handle_processed_item`. -/
def handle (env : TreeEnv) (ts : TreeSerializer) (item : Path × StreamNode) : Option TreeSerializer :=
  match ts.handleProcessedItem item.1 item.2 with
  | none => none
  | some (ts', next) => finalizeIfComplete env (next.length + 1) ts' next

/-- The items one after the other, then `finalize_root`: an error, or the ID of the root tree if the
root has become complete. -/
def serialize (env : TreeEnv) (ts : TreeSerializer) (order : List (Path × StreamNode)) :
    Option (Option ID) :=
  match order.foldlM (handle env) ts with
  | none => none
  | some ts' =>
    (finalizeIfComplete env (ts'.snapshotRootPath.length + 1) ts' ts'.snapshotRootPath).map
      rootTreeId

@[simp] theorem entry_insert (ts : TreeSerializer) (path path' : Path) (tree : PendingTree) :
    entry { ts with pendingTrees := ts.pendingTrees.insert path tree } path' =
      if path' = path then tree else ts.entry path' := by
  unfold entry
  dsimp only
  rw [Table.lookup_insert_eq_ite]
  split <;> rfl

theorem lookup_of_entry {ts : TreeSerializer} {path : Path} {count : Nat} {node : Option Node}
    {children : List Node} (h : ts.entry path = ⟨.known count, node, children⟩) :
    ts.pendingTrees.lookup path = some ⟨.known count, node, children⟩ := by
  unfold entry at h
  cases hl : ts.pendingTrees.lookup path with
  | none =>
    rw [hl] at h
    cases h
  | some tree =>
    rw [hl] at h
    exact congrArg some h

end TreeSerializer

/-! ## The tree of a stream -/

instance (S : SourceStream) (path : Path) : Decidable (S.Pre path) :=
  inferInstanceAs (Decidable (IsIntermediate S.root S.sources path))

instance (S : SourceStream) (path : Path) : Decidable (S.Dir path) :=
  inferInstanceAs (Decidable (_ ∨ _ ∨ ∃ i ∈ S.items, _))

namespace SourceStream

variable (S : SourceStream) (env : TreeEnv) (own : Path → Node)

/-- The node of a directory that the stream does not emit. -/
def synthetic (path : Path) : Node :=
  { name := ((fileName path).map toStringLossy).getD "", nodeType := .directory }

/-- No path is longer. -/
def height : Nat := (S.nodes.map List.length).foldr max S.root.length

/-- The tree of a directory, where `own` says which node each path has. -/
def treeId : Nat → Path → ID
  | 0, _ => 0
  | depth + 1, dir =>
    (env.saveToStore ((S.children dir).map fun c =>
      if S.Dir c then { own c with tree := some (treeId depth c) } else own c)).getD 0

/-- The ID of the tree of a directory. -/
def treeOf (dir : Path) : ID := S.treeId env own (S.height + 1 - dir.length) dir

/-- The node that a directory has for a path in it. -/
def final (path : Path) : Node :=
  if S.Dir path then { own path with tree := some (S.treeOf env own path) } else own path

/-- The tree of the directory can be serialized. -/
def Serializes (dir : Path) : Prop := (env.saveToStore ((S.children dir).map (S.final env own))).isSome

section Tree

variable {S env own} {dir path : Path}

theorem length_le_height (h : S.Dir dir) : dir.length ≤ S.height := by
  have hmax : ∀ (l : List Nat) (m n : Nat), n ∈ l ∨ n ≤ m → n ≤ l.foldr max m := by
    intro l m n hn
    induction l with
    | nil => simpa using hn
    | cons a l ih =>
      rw [List.foldr_cons, le_max_iff]
      rcases hn with hn | hn
      · rcases List.mem_cons.mp hn with rfl | hn
        · exact Or.inl le_rfl
        · exact Or.inr (ih (Or.inl hn))
      · exact Or.inr (ih (Or.inr hn))
  refine hmax _ _ _ ?_
  by_cases heq : dir = S.root
  · right
    rw [heq]
  · exact Or.inl (List.mem_map_of_mem (h.mem_nodes heq))

/-- **The tree of a directory**: the nodes of its children. -/
theorem treeOf_eq (h : S.Dir dir) :
    S.treeOf env own dir = (env.saveToStore ((S.children dir).map (S.final env own))).getD 0 := by
  have hle := length_le_height h
  have hdepth : S.height + 1 - dir.length = (S.height - dir.length) + 1 := by omega
  rw [treeOf, hdepth, treeId]
  refine congrArg (fun nodes => (env.saveToStore nodes).getD 0) (List.map_congr_left fun c hc => ?_)
  obtain ⟨hmem, hparent⟩ := mem_children.mp hc
  have hlen : S.height - dir.length = S.height + 1 - c.length := by
    have hpos := List.length_pos_iff.mpr (root_lt hmem).ne_nil
    have hdrop := congrArg List.length hparent
    rw [List.length_dropLast] at hdrop
    omega
  rw [final, treeOf, hlen]

end Tree

/-- The names in every directory are distinct after the lossy conversion. -/
def NamesDistinct : Prop :=
  ∀ dir, S.Dir dir → ((S.children dir).map fun c => toStringLossy (lastName c)).Nodup

/-- The nodes have the names of their paths. -/
def Named : Prop := ∀ path ∈ S.nodes, ∀ name, fileName path = some name →
  (own path).name = toStringLossy name

/-! ## The invariant -/

/-- The node of the item that has arrived for a path. -/
def arrivedNode (arrived : List (Path × StreamNode)) (path : Path) : Option Node :=
  (arrived.find? fun i => i.1 = path).map fun i => i.2.node

open Classical in
/-- The number of children that the entry of a directory waits for. -/
noncomputable def expected (arrived : List (Path × StreamNode)) (dir : Path) : ExpectedChildren :=
  if S.Known arrived dir then .known (S.children dir).length else .unknown

open Classical in
/-- The nodes that a directory has when those in `delivered` are finished. -/
noncomputable def delivery (delivered : Path → Prop) (dir : Path) : List Node :=
  ((S.children dir).filter fun c => delivered c).map (S.final env own)

open Classical in
/-- The serializer after some of the items, with the paths that are finished. An unfinished
directory has the nodes of the children that are; a finished one is out of the map, or it waits in
vain. -/
structure Inv (arrived : List (Path × StreamNode)) (delivered : Path → Prop) (ts : TreeSerializer) :
    Prop where
  root : ts.snapshotRootPath = S.root
  pending : ∀ dir, S.Dir dir → ¬ delivered dir → ∃ children,
    ts.entry dir = ⟨S.expected arrived dir, arrivedNode arrived dir, children⟩ ∧
      children.Perm (S.delivery env own delivered dir)
  finished : ∀ dir, S.Dir dir → delivered dir → ∀ tree, ts.pendingTrees.lookup dir = some tree →
    tree.children = [] ∧ tree.isPending = true
  serializes : ∀ dir, S.Dir dir → delivered dir → S.Serializes env own dir
  rootTreeId : ts.rootTreeId = if delivered S.root then some (S.treeOf env own S.root) else none

section Inv

variable {S env own} {arrived : List (Path × StreamNode)} {delivered delivered' : Path → Prop}
  {ts : TreeSerializer} {dir path : Path} {node : Node}

theorem final_name (hnamed : S.Named own) (hpath : path ∈ S.nodes) {name : Bytes}
    (hname : fileName path = some name) : (S.final env own path).name = toStringLossy name := by
  unfold final
  split <;> exact hnamed path hpath name hname

/-- The nodes of a directory have distinct names. -/
theorem nodup_final_name (env : TreeEnv) (hnames : S.NamesDistinct) (hnamed : S.Named own)
    (hdir : S.Dir dir) :
    (((S.children dir).map (S.final env own)).map Node.name).Nodup := by
  rw [List.map_map]
  refine nodup_map_children fun p hp q hq name name' hpfile hqfile heq => ?_
  -- the converted names are distinct
  have hpq : p = q := by
    refine List.inj_on_of_nodup_map (hnames dir hdir) hp hq ?_
    rw [lastName_of_fileName hpfile, lastName_of_fileName hqfile,
      ← final_name hnamed (mem_children.mp hp).1 hpfile, ← final_name hnamed (mem_children.mp hq).1
        hqfile]
    exact heq
  rw [hpq]

theorem delivery_congr (h : ∀ c ∈ S.children dir, delivered c ↔ delivered' c) :
    S.delivery env own delivered dir = S.delivery env own delivered' dir := by
  unfold delivery
  congr 1
  exact List.filter_congr fun c hc => decide_eq_decide.mpr (h c hc)

/-- A new child of a directory. -/
theorem delivery_perm (hpath : path ∈ S.children dir) (hnew : ¬ delivered path)
    (h : ∀ c, delivered' c ↔ delivered c ∨ c = path) :
    (S.delivery env own delivered dir ++ [S.final env own path]).Perm
      (S.delivery env own delivered' dir) := by
  classical
  unfold delivery
  have hnodup := nodup_children (S := S) dir
  have hperm : ((S.children dir).filter (fun c => delivered c) ++ [path]).Perm
      ((S.children dir).filter fun c => delivered' c) := by
    refine (List.perm_ext_iff_of_nodup ?_ (hnodup.filter _)).mpr fun c => ?_
    · refine List.nodup_append'.mpr ⟨hnodup.filter _, List.nodup_singleton _, ?_⟩
      intro c hc hc'
      rw [List.mem_singleton.mp hc'] at hc
      exact hnew (of_decide_eq_true (List.mem_filter.mp hc).2)
    · rw [List.mem_append, List.mem_filter, List.mem_filter, List.mem_singleton, decide_eq_true_iff,
        decide_eq_true_iff, h]
      constructor
      · rintro (⟨hc, hd⟩ | rfl)
        · exact ⟨hc, Or.inl hd⟩
        · exact ⟨hpath, Or.inr rfl⟩
      · rintro ⟨hc, hd | rfl⟩
        · exact Or.inl ⟨hc, hd⟩
        · exact Or.inr rfl
  have hmap := hperm.map (S.final env own)
  rwa [List.map_append, List.map_singleton] at hmap

theorem Inv.congr (h : S.Inv env own arrived delivered ts)
    (hiff : ∀ path, delivered path ↔ delivered' path) : S.Inv env own arrived delivered' ts := by
  have heq : delivered = delivered' := funext fun path => propext (hiff path)
  rw [← heq]
  exact h

/-- **A finished path goes to its parent.** Its own entry may have been taken out of the map. -/
theorem Inv.deliver {ts' : TreeSerializer} (h : S.Inv env own arrived delivered ts)
    (hts : ts'.snapshotRootPath = ts.snapshotRootPath ∧ ts'.rootTreeId = ts.rootTreeId ∧
      ∀ dir, dir ≠ path → ts'.pendingTrees.lookup dir = ts.pendingTrees.lookup dir)
    (hpath : path ∈ S.nodes) (hparent : ¬ delivered path.dropLast) (hnew : ¬ delivered path)
    (hdelivered : ∀ c, delivered' c ↔ delivered c ∨ c = path)
    (hfinished : S.Dir path → ts'.pendingTrees.lookup path = none ∧ S.Serializes env own path) :
    S.Inv env own arrived delivered'
      (ts'.insertFinalizedNode path.dropLast (S.final env own path)) := by
  classical
  obtain ⟨htsroot, htsid, hlookup⟩ := hts
  have hentry' : ∀ dir, dir ≠ path → ts'.entry dir = ts.entry dir := fun dir hne => by
    rw [TreeSerializer.entry, TreeSerializer.entry, hlookup dir hne]
  have hneq : path.dropLast ≠ path := (StrictPrefix.dropLast (root_lt hpath).ne_nil).2
  have hroot : path ≠ S.root := (root_lt hpath).2.symm
  rw [TreeSerializer.insertFinalizedNode]
  refine ⟨htsroot.trans h.root, fun dir hdir hnot => ?_, fun dir hdir hdel tree htree => ?_,
    fun dir hdir hdel => ?_, ?_⟩
  · -- a directory that still waits
    have hold : ¬ delivered dir := fun hd => hnot ((hdelivered dir).mpr (Or.inl hd))
    have hne : dir ≠ path := fun heq => hnot ((hdelivered dir).mpr (Or.inr heq))
    obtain ⟨children, hentry, hperm⟩ := h.pending dir hdir hold
    rw [TreeSerializer.entry_insert]
    split
    · rename_i heq
      subst heq
      rw [hentry' _ hneq, hentry]
      refine ⟨_, rfl, (hperm.append_right _).trans ?_⟩
      exact delivery_perm (mem_children.mpr ⟨hpath, rfl⟩) hnew hdelivered
    · rename_i hother
      refine ⟨children, (hentry' dir hne).trans hentry, ?_⟩
      rw [← delivery_congr fun c hc => ?_]
      · exact hperm
      · rw [hdelivered]
        refine ⟨Or.inl, fun hc' => hc'.resolve_right ?_⟩
        rintro rfl
        exact hother (mem_children.mp hc).2.symm
  · -- a finished directory
    dsimp only at htree
    rcases (hdelivered dir).mp hdel with hd | rfl
    · have hne : dir ≠ path.dropLast := fun heq => hparent (heq ▸ hd)
      have hne' : dir ≠ path := fun heq => hnew (heq ▸ hd)
      rw [Table.lookup_insert_eq_ite, if_neg hne, hlookup dir hne'] at htree
      exact h.finished dir hdir hd tree htree
    · rw [Table.lookup_insert_eq_ite, if_neg hneq.symm, (hfinished hdir).1] at htree
      cases htree
  · rcases (hdelivered dir).mp hdel with hd | rfl
    · exact h.serializes dir hdir hd
    · exact (hfinished hdir).2
  · have hiff : delivered' S.root ↔ delivered S.root := by
      rw [hdelivered]
      exact ⟨fun hd => hd.resolve_right hroot.symm, Or.inl⟩
    dsimp only
    rw [htsid, h.rootTreeId]
    exact if_congr hiff.symm rfl rfl

/-- The root is finished. -/
theorem Inv.deliver_root (h : S.Inv env own arrived delivered ts)
    (hdelivered : ∀ c, S.root <+: c → (delivered' c ↔ delivered c ∨ c = S.root))
    (hser : S.Serializes env own S.root) :
    S.Inv env own arrived delivered'
      { ts with
        pendingTrees := ts.pendingTrees.erase S.root
        rootTreeId := some (S.treeOf env own S.root) } := by
  classical
  refine ⟨h.root, fun dir hdir hnot => ?_, fun dir hdir hdel tree htree => ?_,
    fun dir hdir hdel => ?_, ?_⟩
  · have hold : ¬ delivered dir := fun hd => hnot ((hdelivered dir hdir.root_le).mpr (Or.inl hd))
    have hne : dir ≠ S.root := fun heq => hnot ((hdelivered dir hdir.root_le).mpr (Or.inr heq))
    obtain ⟨children, hentry, hperm⟩ := h.pending dir hdir hold
    refine ⟨children, ?_, ?_⟩
    · rw [TreeSerializer.entry]
      dsimp only
      rw [Table.lookup_erase_eq_ite, if_neg hne]
      exact hentry
    · rw [← delivery_congr fun c hc => ?_]
      · exact hperm
      · have hlt := root_lt (mem_children.mp hc).1
        rw [hdelivered c hlt.1]
        exact ⟨Or.inl, fun hc' => hc'.resolve_right hlt.2.symm⟩
  · dsimp only at htree
    rw [Table.lookup_erase_eq_ite] at htree
    split at htree
    · cases htree
    · rename_i hne
      exact h.finished dir hdir (((hdelivered dir hdir.root_le).mp hdel).resolve_right hne) tree htree
  · rcases (hdelivered dir hdir.root_le).mp hdel with hd | rfl
    · exact h.serializes dir hdir hd
    · exact hser
  · exact (if_pos ((hdelivered S.root (List.prefix_refl _)).mpr (Or.inr rfl))).symm

/-- A directory above a path is done only if the path is. -/
theorem Done.below (h : S.Done arrived dir) (hle : dir <+: path) : S.Done arrived path :=
  fun j hj hj' hpre => h j hj (hle.trans hj') hpre

/-- A directory that is not done still waits. -/
theorem takeComplete_eq_none (hdir : S.Dir dir) (hsub : ∀ i ∈ arrived, i ∈ S.items)
    (hnot : ¬ S.Done arrived dir) {children : List Node}
    (hentry : ts.entry dir = ⟨S.expected arrived dir, arrivedNode arrived dir, children⟩)
    (hperm : children.Perm (S.delivery env own (S.Done arrived) dir)) :
    ts.takeComplete dir = none := by
  classical
  unfold TreeSerializer.takeComplete
  cases hl : ts.pendingTrees.lookup dir with
  | none => rfl
  | some tree =>
    have htree : tree = ⟨S.expected arrived dir, arrivedNode arrived dir, children⟩ := by
      rw [← hentry, TreeSerializer.entry, hl, Option.getD_some]
    have hpending : tree.isPending = true := by
      rw [htree, PendingTree.isPending]
      by_cases hknown : S.Known arrived dir
      · -- one of the children is not done
        obtain ⟨c, hc, hcnot⟩ : ∃ c ∈ S.children dir, ¬ S.Done arrived c := by
          by_contra hall
          push Not at hall
          exact hnot ((done_iff hdir hsub).mpr ⟨hknown, hall⟩)
        rw [expected, if_pos hknown]
        refine decide_eq_true ?_
        rw [hperm.length_eq, delivery, List.length_map]
        exact List.length_filter_lt_length_iff_exists.mpr ⟨c, hc, by simpa using hcnot⟩
      · rw [expected, if_neg hknown]
    simp only [hpending, if_true]

/-- A list of nodes with distinct names has no two neighbours of the same name. -/
theorem hasAdjacentDuplicate_eq_false {nodes : List Node} (h : (nodes.map Node.name).Nodup) :
    PendingTree.hasAdjacentDuplicate nodes = false := by
  induction nodes with
  | nil => rfl
  | cons a nodes ih =>
    cases nodes with
    | nil => rfl
    | cons b nodes =>
      rw [List.map_cons, List.nodup_cons] at h
      rw [PendingTree.hasAdjacentDuplicate, Bool.or_eq_false_iff]
      refine ⟨decide_eq_false fun heq => h.1 ?_, ih h.2⟩
      rw [heq]
      exact List.mem_map_of_mem List.mem_cons_self

/-- The node that a finished directory gets. -/
theorem completedDirNode_eq {tree : PendingTree} (hdir : S.Dir path)
    (hown : tree.node.getD (synthetic path) = own path) :
    TreeSerializer.completedDirNode path tree (S.treeOf env own path) = S.final env own path := by
  rw [TreeSerializer.completedDirNode, final, if_pos hdir, ← hown]
  rfl

/-- A directory that is done is complete, with the nodes of all its children. -/
theorem takeComplete_eq_some (hdir : S.Dir dir) (hsub : ∀ i ∈ arrived, i ∈ S.items)
    (hdone : S.Done arrived dir) {children : List Node}
    (hentry : ts.entry dir = ⟨S.expected arrived dir, arrivedNode arrived dir, children⟩)
    (hperm : children.Perm (S.delivery env own (S.Done arrived) dir)) :
    ts.takeComplete dir = some ({ ts with pendingTrees := ts.pendingTrees.erase dir },
      ⟨.known children.length, arrivedNode arrived dir, children⟩) ∧
    children.Perm ((S.children dir).map (S.final env own)) := by
  classical
  obtain ⟨hknown, hall⟩ := (done_iff hdir hsub).mp hdone
  have hdelivery : S.delivery env own (S.Done arrived) dir =
      (S.children dir).map (S.final env own) := by
    rw [delivery, List.filter_eq_self.mpr fun c hc => decide_eq_true (hall c hc)]
  rw [hdelivery] at hperm
  have hlen : (S.children dir).length = children.length := by rw [hperm.length_eq, List.length_map]
  rw [expected, if_pos hknown, hlen] at hentry
  refine ⟨?_, hperm⟩
  rw [TreeSerializer.takeComplete, TreeSerializer.lookup_of_entry hentry]
  simp [PendingTree.isPending]

/-- The step from a finished directory to its parent. -/
theorem resume_eq (ts : TreeSerializer) (hpath : path ∈ S.nodes)
    (hroot : ts.snapshotRootPath = S.root) (tree : PendingTree) (treeId : ID) :
    ts.resume path tree treeId =
      some (ts.insertFinalizedNode path.dropLast
        (TreeSerializer.completedDirNode path tree treeId), some path.dropLast) := by
  have hlt := root_lt hpath
  rw [TreeSerializer.resume, hroot, if_neg hlt.2.symm]
  rcases (absolute_of_mem hpath).cases_last with rfl | ⟨name, hname, -⟩
  · -- only the virtual root is above the root of the file system
    have hnil : S.root = [] := List.length_eq_zero_iff.mp (Nat.lt_one_iff.mp hlt.length_lt)
    rw [hnil]
    rfl
  · have hparent : extractParent path = some path.dropLast := by
      rw [hname, extractParent_append, List.dropLast_concat]
    rw [hparent]

/-- No child of a directory is a prefix of it. -/
theorem delivery_above : S.delivery env own (fun c => S.Done arrived c ∧ ¬ c <+: path) path =
    S.delivery env own (S.Done arrived) path := by
  refine delivery_congr fun c hc => ⟨fun hd => hd.1, fun hd => ⟨hd, ?_⟩⟩
  obtain ⟨hmem, hparent⟩ := mem_children.mp hc
  have hlt := StrictPrefix.dropLast (root_lt hmem).ne_nil
  rw [hparent] at hlt
  exact hlt.not_le_self

theorem done_root_iff {c : Path} (hdone : S.Done arrived S.root) (hroot : S.root <+: c) :
    S.Done arrived c ↔ (S.Done arrived c ∧ ¬ c <+: S.root) ∨ c = S.root := by
  constructor
  · intro hc
    by_cases hle : c <+: S.root
    · exact Or.inr (hle.eq_of_length_le hroot.length_le)
    · exact Or.inl ⟨hc, hle⟩
  · rintro (hc | rfl)
    · exact hc.1
    · exact hdone

/-- The prefixes of a path are the path itself and those of its parent. -/
theorem done_dropLast_iff {c : Path} (hdone : S.Done arrived path)
    (hlt : StrictPrefix path.dropLast path) :
    (S.Done arrived c ∧ ¬ c <+: path.dropLast) ↔ (S.Done arrived c ∧ ¬ c <+: path) ∨ c = path := by
  constructor
  · rintro ⟨hc, hle⟩
    by_cases heq : c = path
    · exact Or.inr heq
    · exact Or.inl ⟨hc, fun hle' => hle (StrictPrefix.prefix_dropLast ⟨hle', heq⟩)⟩
  · rintro (⟨hc, hle⟩ | rfl)
    · exact ⟨hc, fun hle' => hle (hle'.trans hlt.1)⟩
    · exact ⟨hdone, hlt.not_le_self⟩

/-- **What `finalize_if_complete` does** for a directory in which something has arrived. Everything
that the arrived items complete is finished, or one of the trees cannot be serialized. -/
theorem Inv.finalizeIfComplete (hnames : S.NamesDistinct) (hnamed : S.Named own)
    (hsub : ∀ i ∈ arrived, i ∈ S.items) (fuel : Nat) (hfuel : path.length < fuel) (hdir : S.Dir path)
    (hown : ∀ d, d <+: path → S.Dir d → d ≠ S.root → S.Done arrived d →
      (arrivedNode arrived d).getD (synthetic d) = own d)
    (h : S.Inv env own arrived (fun c => S.Done arrived c ∧ ¬ c <+: path) ts) :
    (∃ ts', ts.finalizeIfComplete env fuel path = some ts' ∧
      S.Inv env own arrived (S.Done arrived) ts') ∨
    (ts.finalizeIfComplete env fuel path = none ∧
      ∃ d, S.Dir d ∧ ¬ S.Serializes env own d) := by
  induction fuel generalizing ts path with
  | zero => exact absurd hfuel (Nat.not_lt_zero _)
  | succ fuel ih =>
    obtain ⟨children, hentry, hperm⟩ := h.pending path hdir fun hd => hd.2 (List.prefix_refl _)
    rw [delivery_above] at hperm
    by_cases hdone : S.Done arrived path
    · obtain ⟨htake, hall⟩ := takeComplete_eq_some hdir hsub hdone hentry hperm
      have hnodup : (children.map Node.name).Nodup :=
        (hall.map Node.name).nodup_iff.mpr (nodup_final_name env hnames hnamed hdir)
      have hvalid : PendingTree.isValid
          ⟨.known children.length, arrivedNode arrived path, children⟩ = true := by
        simp [PendingTree.isValid, hasAdjacentDuplicate_eq_false hnodup]
      rw [TreeSerializer.finalizeIfComplete, htake]
      simp only [hvalid, if_true, env.saveToStore_perm hall hnodup]
      cases hsave : env.saveToStore ((S.children path).map (S.final env own)) with
      | none =>
        refine Or.inr ⟨rfl, path, hdir, fun hser => ?_⟩
        rw [Serializes, hsave] at hser
        cases hser
      | some treeId =>
        have hser : S.Serializes env own path := by
          rw [Serializes, hsave]
          rfl
        have hid : treeId = S.treeOf env own path := by
          rw [treeOf_eq hdir, hsave, Option.getD_some]
        subst hid
        by_cases hroot : path = S.root
        · subst hroot
          have hresume : TreeSerializer.resume
              { ts with pendingTrees := ts.pendingTrees.erase S.root } S.root
              ⟨.known children.length, arrivedNode arrived S.root, children⟩
              (S.treeOf env own S.root) =
            some ({ ts with
              pendingTrees := ts.pendingTrees.erase S.root
              rootTreeId := some (S.treeOf env own S.root) }, none) := if_pos h.root.symm
          simp only [hresume]
          exact Or.inl ⟨_, rfl, h.deliver_root (fun c hroot => done_root_iff hdone hroot) hser⟩
        · have hmem : path ∈ S.nodes := hdir.mem_nodes hroot
          simp only [resume_eq { ts with pendingTrees := ts.pendingTrees.erase path } hmem h.root]
          rw [completedDirNode_eq hdir (hown path (List.prefix_refl _) hdir hroot hdone)]
          have hlt := StrictPrefix.dropLast (root_lt hmem).ne_nil
          refine ih ?_ (dir_dropLast hmem) (fun d hd => hown d (hd.trans hlt.1)) ?_
          · have hlen := hlt.length_lt
            omega
          · exact h.deliver ⟨rfl, rfl, fun dir hne => AList.lookup_erase_ne hne⟩ hmem
              (fun hd => hd.2 hlt.1) (fun hd => hd.2 (List.prefix_refl _))
              (fun c => done_dropLast_iff hdone hlt) fun _ => ⟨AList.lookup_erase _ _, hser⟩
    · -- the directory waits, and so do those above it
      rw [TreeSerializer.finalizeIfComplete, takeComplete_eq_none hdir hsub hdone hentry hperm]
      refine Or.inl ⟨ts, rfl, h.congr fun c => ⟨fun hd => hd.1, fun hd => ⟨hd, fun hle => ?_⟩⟩⟩
      exact hdone (hd.below hle)

end Inv

end SourceStream

end Mapache
