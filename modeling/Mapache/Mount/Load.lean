import Mapache.Mount.Fs
import Mapache.Mount.View

/-!
# Loading a directory

The loop of `ensure_loaded` gives a child to every node of the tree that has a kind, with a number
that was never used (`loadChildren_of`, `loadChildren_fresh`). With these children `upgradeLazyDir`
binds only names of the directory, to new nodes (`finishLoad_spec`).
-/

set_option autoImplicit false

namespace Mapache

open Lib

variable (symlinkTarget : Node → String) (time : Int) {s : Stash} {ino : INodeNo} {tree : List Node}

/-! ## The children of a tree -/

/-- The child that a node becomes. -/
structure Stash.Child.Of (node : Node) (child : Stash.Child) : Prop where
  name : child.name = node.name
  kind : nodeKind symlinkTarget node = some child.kind
  attr : child.attr = nodeToFileattr child.attr.ino time node

theorem loadChildren_state (tree : List Node) (s : Stash) :
    (loadChildren symlinkTarget time s tree).2 = { s with inoCounter := s.inoCounter + tree.length } := by
  induction tree generalizing s with
  | nil => rfl
  | cons node tree ih =>
    have hrest := ih s.nextIno.2
    have hlength : s.inoCounter + 1 + tree.length = s.inoCounter + (node :: tree).length := by
      rw [List.length_cons, Nat.add_assoc, Nat.add_comm 1]
    rw [loadChildren, ← hlength]
    split <;> exact hrest

/-- The numbers of the children are new, and increase. -/
theorem loadChildren_fresh (tree : List Node) (s : Stash) :
    (∀ child ∈ (loadChildren symlinkTarget time s tree).1, s.inoCounter < child.attr.ino ∧
      s.inoCounter + tree.length ≥ child.attr.ino) ∧
      (loadChildren symlinkTarget time s tree).1.Pairwise fun c c' => c.attr.ino < c'.attr.ino := by
  induction tree generalizing s with
  | nil =>
    refine ⟨?_, .nil⟩
    intro child hmem
    cases hmem
  | cons node tree ih =>
    obtain ⟨hrange, hpairwise⟩ := ih s.nextIno.2
    have hnext : s.nextIno.2.inoCounter = s.inoCounter + 1 := rfl
    rw [hnext] at hrange
    rw [loadChildren, List.length_cons]
    split
    · refine ⟨fun child hmem => ?_, hpairwise⟩
      have := hrange child hmem
      omega
    · have hino : ∀ t, (nodeToFileattr s.nextIno.1 t node).ino = s.inoCounter + 1 := fun _ => rfl
      constructor
      · intro child hmem
        rcases List.mem_cons.mp hmem with rfl | hmem
        · rw [hino]
          omega
        · have := hrange child hmem
          omega
      · refine List.pairwise_cons.mpr ⟨?_, hpairwise⟩
        intro child hmem
        have hlt := (hrange child hmem).1
        rw [hino]
        omega

/-- The children are those of the nodes that have a kind. -/
theorem loadChildren_of (tree : List Node) (s : Stash) :
    List.Forall₂ (Stash.Child.Of symlinkTarget time)
      (tree.filter fun node => (nodeKind symlinkTarget node).isSome)
      (loadChildren symlinkTarget time s tree).1 := by
  induction tree generalizing s with
  | nil => exact .nil
  | cons node tree ih =>
    have hrest := ih s.nextIno.2
    rw [loadChildren]
    split
    · rename_i hnone
      rw [List.filter_cons_of_neg (by simp [hnone])]
      exact hrest
    · rename_i kind hkind
      rw [List.filter_cons_of_pos (by simp [hkind])]
      exact .cons ⟨rfl, hkind, rfl⟩ hrest

variable {symlinkTarget time}

theorem Stash.Child.Of.names {nodes : List Node} {children : List Stash.Child}
    (h : List.Forall₂ (Stash.Child.Of symlinkTarget time) nodes children) :
    children.map Stash.Child.name = nodes.map Node.name := by
  induction h with
  | nil => rfl
  | cons hchild _ ih => rw [List.map_cons, List.map_cons, hchild.name, ih]

theorem Stash.Child.Of.exists_node {nodes : List Node} {children : List Stash.Child}
    (h : List.Forall₂ (Stash.Child.Of symlinkTarget time) nodes children) {child : Stash.Child}
    (hmem : child ∈ children) : ∃ node ∈ nodes, Stash.Child.Of symlinkTarget time node child := by
  induction h with
  | nil => cases hmem
  | cons hchild _ ih =>
    rcases List.mem_cons.mp hmem with rfl | hmem
    · exact ⟨_, List.mem_cons_self, hchild⟩
    · obtain ⟨node, hnode, hof⟩ := ih hmem
      exact ⟨node, List.mem_cons_of_mem _ hnode, hof⟩

theorem Stash.Child.Of.exists_child {nodes : List Node} {children : List Stash.Child}
    (h : List.Forall₂ (Stash.Child.Of symlinkTarget time) nodes children) {node : Node}
    (hmem : node ∈ nodes) : ∃ child ∈ children, Stash.Child.Of symlinkTarget time node child := by
  induction h with
  | nil => cases hmem
  | cons hchild _ ih =>
    rcases List.mem_cons.mp hmem with rfl | hmem
    · exact ⟨_, List.mem_cons_self, hchild⟩
    · obtain ⟨child, hchild, hof⟩ := ih hmem
      exact ⟨child, List.mem_cons_of_mem _ hchild, hof⟩

/-! ## The directory -/

namespace Stash

variable {childrenNodes : List Child} {node : FsNode} {name : String}

/-- The children of the directory after it was loaded. -/
def childrenMap (childrenNodes : List Child) : Table String INodeNo :=
  childrenNodes.foldl (fun m child => m.insert child.name child.attr.ino) ∅

/-- The children have names and numbers of their own, and no number is in use. -/
structure Fresh (s : Stash) (childrenNodes : List Child) : Prop where
  names : (childrenNodes.map Child.name).Nodup
  inos : (childrenNodes.map fun child => child.attr.ino).Nodup
  unused : ∀ child ∈ childrenNodes, s.nodes.lookup child.attr.ino = none

theorem childrenMap_lookup (h : s.Fresh childrenNodes) {i : INodeNo} :
    (childrenMap childrenNodes).lookup name = some i ↔
      ∃ child ∈ childrenNodes, child.name = name ∧ child.attr.ino = i := by
  constructor
  · intro hlookup
    rcases Table.of_lookup_foldl_insert _ h.names hlookup with hnew | ⟨-, hold⟩
    · exact hnew
    · cases hold
  · rintro ⟨child, hmem, rfl, rfl⟩
    exact Table.lookup_foldl_insert_of_mem _ h.names hmem

theorem upgradeLazyDir_self (h : s.Fresh childrenNodes) (hnode : s.nodes.lookup ino = some node) :
    ∃ nlink, (s.upgradeLazyDir ino childrenNodes).nodes.lookup ino =
      some { node with attr := { node.attr with nlink }, kind := .dir (childrenMap childrenNodes) } := by
  have hnot : ino ∉ childrenNodes.map fun child => child.attr.ino := by
    intro hmem
    obtain ⟨child, hchild, rfl⟩ := List.mem_map.mp hmem
    rw [h.unused child hchild] at hnode
    cases hnode
  have hlookup : (childrenNodes.foldl (fun m child => m.insert child.attr.ino (child.node ino))
      s.nodes).lookup ino = some node :=
    (Table.lookup_foldl_insert_of_not_mem s.nodes hnot).trans hnode
  simp only [upgradeLazyDir, hlookup, AList.lookup_insert]
  split
  · exact ⟨_, rfl⟩
  · exact ⟨node.attr.nlink, rfl⟩

theorem upgradeLazyDir_child (h : s.Fresh childrenNodes) (hnode : s.nodes.lookup ino = some node)
    {child : Child} (hchild : child ∈ childrenNodes) :
    (s.upgradeLazyDir ino childrenNodes).nodes.lookup child.attr.ino = some (child.node ino) := by
  have hne : child.attr.ino ≠ ino := by
    rintro rfl
    rw [h.unused child hchild] at hnode
    cases hnode
  have hlookup : (childrenNodes.foldl (fun m child => m.insert child.attr.ino (child.node ino))
      s.nodes).lookup child.attr.ino = some (child.node ino) :=
    Table.lookup_foldl_insert_of_mem s.nodes h.inos hchild
  rw [upgradeLazyDir]
  dsimp only
  split
  · exact hlookup
  · rw [AList.lookup_insert_ne hne]
    exact hlookup

theorem upgradeLazyDir_other {i : INodeNo} (hne : i ≠ ino)
    (hnot : i ∉ childrenNodes.map fun child => child.attr.ino) :
    (s.upgradeLazyDir ino childrenNodes).nodes.lookup i = s.nodes.lookup i := by
  have hlookup : (childrenNodes.foldl (fun m child => m.insert child.attr.ino (child.node ino))
      s.nodes).lookup i = s.nodes.lookup i := Table.lookup_foldl_insert_of_not_mem s.nodes hnot
  rw [upgradeLazyDir]
  dsimp only
  split
  · exact hlookup
  · rw [AList.lookup_insert_ne hne]
    exact hlookup

theorem upgradeLazyDir_cached_other {parent : INodeNo} (hne : parent ≠ ino) :
    (s.upgradeLazyDir ino childrenNodes).pathCache.lookup (parent, name) =
      s.pathCache.lookup (parent, name) := by
  apply Table.lookup_foldl_insert_of_not_mem
  intro hmem
  obtain ⟨child, -, heq⟩ := List.mem_map.mp hmem
  exact hne (Prod.ext_iff.mp heq).1.symm

/-- The new bindings of a directory that had none. -/
theorem upgradeLazyDir_cached (h : s.Fresh childrenNodes)
    (hempty : ∀ name, s.pathCache.lookup (ino, name) = none) :
    (s.upgradeLazyDir ino childrenNodes).pathCache.lookup (ino, name) =
      (childrenMap childrenNodes).lookup name := by
  have hnodup : (childrenNodes.map fun child => (ino, child.name)).Nodup := by
    have hinj : Function.Injective fun name : String => (ino, name) := fun _ _ heq =>
      (Prod.ext_iff.mp heq).2
    have := h.names.map hinj
    rwa [List.map_map] at this
  rw [upgradeLazyDir]
  dsimp only
  apply Option.ext
  intro i
  rw [childrenMap_lookup h]
  constructor
  · intro hlookup
    rcases Table.of_lookup_foldl_insert _ hnodup hlookup with ⟨child, hmem, hkey, hino⟩ | ⟨-, hold⟩
    · exact ⟨child, hmem, (Prod.ext_iff.mp hkey).2, hino⟩
    · rw [hempty] at hold
      cases hold
  · rintro ⟨child, hmem, rfl, rfl⟩
    exact Table.lookup_foldl_insert_of_mem s.pathCache hnodup hmem

/-- The children of the other directories are as before. -/
theorem upgradeLazyDir_childrenOf_other {i : INodeNo} (h : s.Fresh childrenNodes)
    (hnode : s.nodes.lookup ino = some node)
    (hkinds : ∀ child ∈ childrenNodes, ∀ children, child.kind ≠ .dir children) (hne : i ≠ ino) :
    (s.upgradeLazyDir ino childrenNodes).childrenOf i = s.childrenOf i := by
  by_cases hmem : i ∈ childrenNodes.map fun child => child.attr.ino
  · obtain ⟨child, hchild, rfl⟩ := List.mem_map.mp hmem
    have hold : s.childrenOf child.attr.ino = ∅ := by
      rw [childrenOf, h.unused child hchild]
      rfl
    rw [hold, childrenOf, upgradeLazyDir_child h hnode hchild, Option.map_some, Child.node]
    dsimp only
    split
    · rename_i children hdir
      exact absurd (Option.some.inj hdir) (hkinds child hchild children)
    · rfl
  · exact childrenOf_congr (upgradeLazyDir_other hne hmem)

theorem upgradeLazyDir_childrenOf_self (h : s.Fresh childrenNodes)
    (hnode : s.nodes.lookup ino = some node) :
    (s.upgradeLazyDir ino childrenNodes).childrenOf ino = childrenMap childrenNodes := by
  obtain ⟨nlink, hself⟩ := upgradeLazyDir_self h hnode
  exact childrenOf_dir hself rfl

/-- A number that is in use is not one of the new children. -/
theorem Fresh.not_mem (h : s.Fresh childrenNodes) {i : INodeNo}
    (hnode : s.nodes.lookup i = some node) :
    i ∉ childrenNodes.map fun child => child.attr.ino := by
  intro hmem
  obtain ⟨child, hchild, rfl⟩ := List.mem_map.mp hmem
  rw [h.unused child hchild] at hnode
  cases hnode

/-- Where the nodes of the upgraded stash come from. -/
theorem of_upgradeLazyDir {i : INodeNo} {fsNode : FsNode} (h : s.Fresh childrenNodes)
    (hnode : s.nodes.lookup ino = some node)
    (hlookup : (s.upgradeLazyDir ino childrenNodes).nodes.lookup i = some fsNode) :
    (i = ino ∧ ∃ nlink, fsNode =
        { node with attr := { node.attr with nlink }, kind := .dir (childrenMap childrenNodes) }) ∨
      (∃ child ∈ childrenNodes, child.attr.ino = i ∧ fsNode = child.node ino) ∨
      s.nodes.lookup i = some fsNode := by
  by_cases hself : i = ino
  · subst hself
    obtain ⟨nlink, hupgraded⟩ := upgradeLazyDir_self h hnode
    exact Or.inl ⟨rfl, nlink, Option.some.inj (hlookup.symm.trans hupgraded)⟩
  · by_cases hmem : i ∈ childrenNodes.map fun child => child.attr.ino
    · obtain ⟨child, hchild, rfl⟩ := List.mem_map.mp hmem
      rw [upgradeLazyDir_child h hnode hchild] at hlookup
      exact Or.inr (Or.inl ⟨child, hchild, rfl, (Option.some.inj hlookup).symm⟩)
    · rw [upgradeLazyDir_other hself hmem] at hlookup
      exact Or.inr (Or.inr hlookup)

theorem extends_upgradeLazyDir {t : ID} (hwf : s.Wf) (h : s.Fresh childrenNodes)
    (hnode : s.nodes.lookup ino = some node) (hkind : node.kind = .lazyDir t) :
    s.Extends (s.upgradeLazyDir ino childrenNodes) := by
  constructor
  · intro i fsNode hlookup
    by_cases hself : i = ino
    · subst hself
      cases hlookup.symm.trans hnode
      obtain ⟨nlink, hupgraded⟩ := upgradeLazyDir_self h hnode
      exact ⟨_, hupgraded, rfl, rfl, ⟨nlink, rfl⟩, Or.inr ⟨t, _, hkind, rfl⟩⟩
    · refine ⟨fsNode, ?_, .refl fsNode⟩
      rw [upgradeLazyDir_other hself (h.not_mem hlookup)]
      exact hlookup
  · rintro ⟨parent, name⟩ i hcached
    by_cases hparent : parent = ino
    · subst hparent
      rw [hwf.agree, childrenOf_lazyDir hnode hkind] at hcached
      cases hcached
    · rw [upgradeLazyDir_cached_other hparent]
      exact hcached

/-- **The inodes stay consistent when a lazy directory is loaded.** -/
theorem Wf.upgradeLazyDir {t : ID} (hwf : s.Wf) (h : s.Fresh childrenNodes)
    (hnode : s.nodes.lookup ino = some node) (hkind : node.kind = .lazyDir t)
    (hkinds : ∀ child ∈ childrenNodes, ∀ children, child.kind ≠ .dir children)
    (hcounter : ∀ child ∈ childrenNodes, s.inoCounter ≥ child.attr.ino) :
    (s.upgradeLazyDir ino childrenNodes).Wf := by
  have hextends := extends_upgradeLazyDir hwf h hnode hkind
  have hempty : ∀ name, s.pathCache.lookup (ino, name) = none := by
    intro name
    rw [hwf.agree, childrenOf_lazyDir hnode hkind]
    rfl
  have hself := upgradeLazyDir_childrenOf_self h hnode
  -- A binding of the upgraded stash is one of a new child or an old one.
  have hcached : ∀ parent name i,
      (s.upgradeLazyDir ino childrenNodes).pathCache.lookup (parent, name) = some i →
      (parent = ino ∧ ∃ child ∈ childrenNodes, child.name = name ∧ child.attr.ino = i) ∨
        (parent ≠ ino ∧ s.pathCache.lookup (parent, name) = some i) := by
    intro parent name i hlookup
    by_cases hparent : parent = ino
    · subst hparent
      rw [upgradeLazyDir_cached h hempty, childrenMap_lookup h] at hlookup
      exact Or.inl ⟨rfl, hlookup⟩
    · rw [upgradeLazyDir_cached_other hparent] at hlookup
      exact Or.inr ⟨hparent, hlookup⟩
  constructor
  · intro i fsNode hlookup
    rcases of_upgradeLazyDir h hnode hlookup with ⟨rfl, nlink, rfl⟩ | ⟨child, hchild, rfl, rfl⟩ | hold
    · exact hwf.inode i node hnode
    · exact ⟨rfl, rfl, hcounter child hchild⟩
    · exact hwf.inode i fsNode hold
  · obtain ⟨root, hroot⟩ := hwf.root
    obtain ⟨root', hroot', -⟩ := hextends.nodes _ root hroot
    exact ⟨root', hroot'⟩
  · intro parent name i hlookup
    rcases hcached parent name i hlookup with ⟨rfl, child, hchild, -, rfl⟩ | ⟨-, hold⟩
    · refine ⟨?_, _, upgradeLazyDir_child h hnode hchild, rfl⟩
      intro hroot
      obtain ⟨root, hlookupRoot⟩ := hwf.root
      rw [← hroot, h.unused child hchild] at hlookupRoot
      cases hlookupRoot
    · obtain ⟨hne, fsNode, hlookupOld, hparent⟩ := hwf.bound parent name i hold
      obtain ⟨fsNode', hlookupNew, hup⟩ := hextends.nodes i fsNode hlookupOld
      exact ⟨hne, fsNode', hlookupNew, hup.parent.trans hparent⟩
  · have hnew : ∀ child ∈ childrenNodes, ∀ parent name,
        s.pathCache.lookup (parent, name) ≠ some child.attr.ino := by
      intro child hchild parent name hold
      obtain ⟨-, fsNode, hlookup, -⟩ := hwf.bound parent name _ hold
      rw [h.unused child hchild] at hlookup
      cases hlookup
    rintro ⟨parent, name⟩ ⟨parent', name'⟩ i hlookup hlookup'
    rcases hcached parent name i hlookup with ⟨rfl, child, hchild, rfl, rfl⟩ | ⟨-, hold⟩
    · rcases hcached parent' name' _ hlookup' with ⟨rfl, child', hchild', rfl, hino⟩ | ⟨-, hold'⟩
      · rw [List.inj_on_of_nodup_map h.inos hchild' hchild hino]
      · exact absurd hold' (hnew child hchild parent' name')
    · rcases hcached parent' name' _ hlookup' with ⟨rfl, child', hchild', rfl, rfl⟩ | ⟨-, hold'⟩
      · exact absurd hold (hnew child' hchild' parent name)
      · exact hwf.distinct _ _ i hold hold'
  · intro i name
    by_cases hne : i = ino
    · subst hne
      rw [upgradeLazyDir_cached h hempty, hself]
    · rw [upgradeLazyDir_cached_other hne, hwf.agree,
        upgradeLazyDir_childrenOf_other h hnode hkinds hne]

/-- Numbers that were taken and not used do no harm. -/
theorem Wf.takeInos (hwf : s.Wf) (n : Nat) :
    ({ s with inoCounter := s.inoCounter + n } : Stash).Wf where
  inode ino node h := by
    obtain ⟨hinode, hattr, hcounter⟩ := hwf.inode ino node h
    exact ⟨hinode, hattr, Nat.le_trans hcounter (Nat.le_add_right _ _)⟩
  root := hwf.root
  bound := hwf.bound
  distinct := hwf.distinct
  agree := hwf.agree

end Stash

/-! ## A directory is loaded -/

section Loaded

variable {node : FsNode} {t : ID}

/-- The children of a tree can be added to the stash that gave them their numbers. -/
theorem fresh_loadChildren (symlinkTarget : Node → String) (time : Int) (hwf : s.Wf)
    (hnames : (tree.map Node.name).Nodup) :
    ({ s with inoCounter := s.inoCounter + tree.length } : Stash).Fresh
      (loadChildren symlinkTarget time s tree).1 := by
  have hfresh := loadChildren_fresh symlinkTarget time tree s
  refine ⟨?_, ?_, fun child hchild => ?_⟩
  · rw [Stash.Child.Of.names (loadChildren_of symlinkTarget time tree s)]
    exact hnames.sublist (List.filter_sublist.map _)
  · exact (List.pairwise_map.mpr hfresh.2).imp fun h => Nat.ne_of_lt h
  · rw [Option.eq_none_iff_forall_ne_some]
    intro fsNode hlookup
    have hle := (hwf.inode _ fsNode hlookup).2.2
    exact absurd (hfresh.1 child hchild).1 (Nat.not_lt.mpr hle)

/-- What loading a lazy directory does to the stash. -/
structure Stash.Loads (symlinkTarget : Node → String) (s : Stash) (ino : INodeNo) (time : Int)
    (tree : List Node) (s' : Stash) : Prop where
  wf : s'.Wf
  extended : s.Extends s'
  loaded : ∃ node children, s'.nodes.lookup ino = some node ∧ node.kind = .dir children
  shows : s'.Shows symlinkTarget ino time tree
  /-- A lazy directory was one before, or has the tree of a node. -/
  lazyDir : ∀ i fsNode t, s'.nodes.lookup i = some fsNode → fsNode.kind = .lazyDir t →
    s.nodes.lookup i = some fsNode ∨ ∃ node ∈ tree, node.tree = some t
  /-- No other directory is loaded. -/
  dir : ∀ i fsNode children, s'.nodes.lookup i = some fsNode → fsNode.kind = .dir children →
    i = ino ∨ s.nodes.lookup i = some fsNode

theorem nodeKind_lazyDir {node : Node} (h : nodeKind symlinkTarget node = some (.lazyDir t)) :
    node.tree = some t := by
  unfold nodeKind at h
  split at h
  · obtain ⟨t', htree, heq⟩ := Option.map_eq_some_iff.mp h
    cases heq
    exact htree
  · cases h
  · cases h

theorem nodeKind_ne_dir {node : Node} {children : Table String INodeNo} :
    nodeKind symlinkTarget node ≠ some (.dir children) := by
  intro h
  unfold nodeKind at h
  split at h
  · obtain ⟨t', htree, heq⟩ := Option.map_eq_some_iff.mp h
    cases heq
  · cases h
  · cases h

theorem finishLoad_spec (symlinkTarget : Node → String) (time : Int) (hwf : s.Wf)
    (hnode : s.nodes.lookup ino = some node)
    (hkind : node.kind = .lazyDir t) (hnames : (tree.map Node.name).Nodup) :
    s.Loads symlinkTarget ino time tree
      (MapacheFS.finishLoad symlinkTarget time ino tree s) := by
  have hfresh := fresh_loadChildren symlinkTarget time hwf hnames
  have hof := loadChildren_of symlinkTarget time tree s
  have hrange := (loadChildren_fresh symlinkTarget time tree s).1
  have hresult : MapacheFS.finishLoad symlinkTarget time ino tree s =
      ({ s with inoCounter := s.inoCounter + tree.length } : Stash).upgradeLazyDir ino
        (loadChildren symlinkTarget time s tree).1 := by
    rw [MapacheFS.finishLoad, Stash.getNode, hnode, Option.map_some, hkind]
    dsimp only
    rw [loadChildren_state]
  rw [hresult]
  generalize (loadChildren symlinkTarget time s tree).1 = childrenNodes at hfresh hof hrange
  have hmem : ∀ child ∈ childrenNodes, ∃ n ∈ tree, Stash.Child.Of symlinkTarget time n child := by
    intro child hchild
    obtain ⟨n, hn, hchildOf⟩ := Stash.Child.Of.exists_node hof hchild
    exact ⟨n, (List.mem_filter.mp hn).1, hchildOf⟩
  have hkinds : ∀ child ∈ childrenNodes, ∀ children, child.kind ≠ .dir children := by
    intro child hchild children hdir
    obtain ⟨n, -, hchildOf⟩ := hmem child hchild
    exact nodeKind_ne_dir (hchildOf.kind.trans (congrArg some hdir))
  have hcounted := hwf.takeInos tree.length
  have hself := Stash.upgradeLazyDir_childrenOf_self hfresh hnode
  have hextends := Stash.extends_upgradeLazyDir hcounted hfresh hnode hkind
  refine ⟨hcounted.upgradeLazyDir hfresh hnode hkind hkinds fun child hchild =>
    (hrange child hchild).2,
    ⟨hextends.nodes, hextends.cached⟩, ?_, ?_, ?_, ?_⟩
  · obtain ⟨nlink, hupgraded⟩ := Stash.upgradeLazyDir_self hfresh hnode
    exact ⟨_, _, hupgraded, rfl⟩
  · constructor
    · intro name i hlookup
      rw [hself, Stash.childrenMap_lookup hfresh] at hlookup
      obtain ⟨child, hchild, rfl, rfl⟩ := hlookup
      obtain ⟨n, hn, hchildOf⟩ := hmem child hchild
      refine ⟨n, hn, hchildOf.name.symm, child.kind, _, hchildOf.kind,
        Stash.upgradeLazyDir_child hfresh hnode hchild, ?_⟩
      rw [← hchildOf.attr]
      exact .refl _
    · intro n hn husable
      obtain ⟨child, hchild, hchildOf⟩ :=
        Stash.Child.Of.exists_child hof (List.mem_filter.mpr ⟨hn, husable⟩)
      refine ⟨child.attr.ino, ?_⟩
      rw [hself, Stash.childrenMap_lookup hfresh]
      exact ⟨child, hchild, hchildOf.name, rfl⟩
  · intro i fsNode t' hlookup hlazy
    rcases Stash.of_upgradeLazyDir hfresh hnode hlookup with ⟨rfl, nlink, rfl⟩ |
      ⟨child, hchild, rfl, rfl⟩ | hold
    · cases hlazy
    · obtain ⟨n, hn, hchildOf⟩ := hmem child hchild
      exact Or.inr ⟨n, hn, nodeKind_lazyDir (hchildOf.kind.trans (congrArg some hlazy))⟩
    · exact Or.inl hold
  · intro i fsNode children hlookup hdir
    rcases Stash.of_upgradeLazyDir hfresh hnode hlookup with ⟨rfl, nlink, rfl⟩ |
      ⟨child, hchild, rfl, rfl⟩ | hold
    · exact Or.inl rfl
    · exact absurd hdir (hkinds child hchild children)
    · exact Or.inr hold

end Loaded

end Mapache
