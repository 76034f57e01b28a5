import Mapache.Mount.Stash

/-!
# The view of a directory that is loaded

`Stash.Wf` is what holds of the inodes at any moment. Loading a directory keeps it and only extends
what was handed out (`Stash.Extends`), and the directory then shows its tree (`Stash.Shows`).
-/

set_option autoImplicit false

namespace Mapache

open Lib

/-- A node of the mount later on: a lazy directory may have been loaded. -/
structure FsNode.Upgrades (node node' : FsNode) : Prop where
  inode : node'.inode = node.inode
  parent : node'.parent = node.parent
  attr : ∃ nlink, node'.attr = { node.attr with nlink }
  kind : node'.kind = node.kind ∨
    ∃ t children, node.kind = .lazyDir t ∧ node'.kind = .dir children

theorem FsNode.Upgrades.refl (node : FsNode) : node.Upgrades node :=
  ⟨rfl, rfl, ⟨node.attr.nlink, rfl⟩, Or.inl rfl⟩

theorem FsNode.Upgrades.trans {node₁ node₂ node₃ : FsNode} (h : node₁.Upgrades node₂)
    (h' : node₂.Upgrades node₃) : node₁.Upgrades node₃ := by
  refine ⟨h'.inode.trans h.inode, h'.parent.trans h.parent, ?_, ?_⟩
  · obtain ⟨n, hn⟩ := h.attr
    obtain ⟨n', hn'⟩ := h'.attr
    exact ⟨n', by rw [hn', hn]⟩
  · rcases h.kind with hsame | ⟨t, children, hlazy, hdir⟩
    · rw [← hsame]
      exact h'.kind
    · rcases h'.kind with hsame | ⟨t', _, hlazy', -⟩
      · exact Or.inr ⟨t, children, hlazy, hsame.trans hdir⟩
      · rw [hdir] at hlazy'
        cases hlazy'

theorem FsNode.Upgrades.attr_kind {node node' : FsNode} (h : node.Upgrades node') :
    node'.attr.kind = node.attr.kind := by
  obtain ⟨n, hn⟩ := h.attr
  rw [hn]

theorem FsNode.Upgrades.attr_crtime {node node' : FsNode} (h : node.Upgrades node') :
    node'.attr.crtime = node.attr.crtime := by
  obtain ⟨n, hn⟩ := h.attr
  rw [hn]

/-- A directory that is not lazy any more is loaded. -/
theorem FsNode.Upgrades.exists_dir {node node' : FsNode} (h : node.Upgrades node')
    (hdir : (∃ children, node.kind = .dir children) ∨ ∃ t, node.kind = .lazyDir t)
    (hloaded : ∀ t, node'.kind ≠ .lazyDir t) : ∃ children, node'.kind = .dir children := by
  rcases h.kind with hsame | ⟨_, children, -, hdir'⟩
  · rcases hdir with ⟨children, hdir⟩ | ⟨t, hlazy⟩
    · exact ⟨children, hsame.trans hdir⟩
    · exact absurd (hsame.trans hlazy) (hloaded t)
  · exact ⟨children, hdir'⟩

namespace Stash

/-- The children of a directory that is loaded. -/
def childrenOf (s : Stash) (ino : INodeNo) : Table String INodeNo :=
  match (s.nodes.lookup ino).map FsNode.kind with
  | some (.dir children) => children
  | _ => ∅

/-- The inodes are consistent. -/
structure Wf (s : Stash) : Prop where
  /-- A node has its own number. -/
  inode : ∀ ino node, s.nodes.lookup ino = some node →
    node.inode = ino ∧ node.attr.ino = ino ∧ ino ≤ s.inoCounter
  root : ∃ node, s.nodes.lookup INodeNo.root = some node
  /-- A bound number has a node, below the directory of the binding. -/
  bound : ∀ parent name ino, s.pathCache.lookup (parent, name) = some ino →
    ino ≠ INodeNo.root ∧ ∃ node, s.nodes.lookup ino = some node ∧ node.parent = parent
  /-- Bindings are to different numbers. -/
  distinct : ∀ key key' ino, s.pathCache.lookup key = some ino → s.pathCache.lookup key' = some ino →
    key = key'
  /-- The bindings are the children of the loaded directories. -/
  agree : ∀ ino name, s.pathCache.lookup (ino, name) = (s.childrenOf ino).lookup name

/-- Nothing that was handed out is taken back. -/
structure Extends (s s' : Stash) : Prop where
  nodes : ∀ ino node, s.nodes.lookup ino = some node →
    ∃ node', s'.nodes.lookup ino = some node' ∧ node.Upgrades node'
  cached : ∀ key ino, s.pathCache.lookup key = some ino → s'.pathCache.lookup key = some ino

variable {s s' s'' : Stash} {symlinkTarget : Node → String} {ino parent : INodeNo} {name : String}
  {node : FsNode} {children : Table String INodeNo} {tree : List Node} {time : Int}

theorem Extends.refl (s : Stash) : s.Extends s :=
  ⟨fun _ node h => ⟨node, h, .refl node⟩, fun _ _ h => h⟩

theorem Extends.trans (h : s.Extends s') (h' : s'.Extends s'') : s.Extends s'' := by
  constructor
  · intro ino node hnode
    obtain ⟨node', hnode', hup⟩ := h.nodes ino node hnode
    obtain ⟨node'', hnode'', hup'⟩ := h'.nodes ino node' hnode'
    exact ⟨node'', hnode'', hup.trans hup'⟩
  · intro key ino hkey
    exact h'.cached key ino (h.cached key ino hkey)

theorem childrenOf_dir (h : s.nodes.lookup ino = some node) (hkind : node.kind = .dir children) :
    s.childrenOf ino = children := by
  rw [childrenOf, h, Option.map_some, hkind]

theorem childrenOf_congr (h : s'.nodes.lookup ino = s.nodes.lookup ino) :
    s'.childrenOf ino = s.childrenOf ino := by
  rw [childrenOf, h]
  rfl

theorem childrenOf_lazyDir {t : ID} (h : s.nodes.lookup ino = some node)
    (hkind : node.kind = .lazyDir t) : s.childrenOf ino = ∅ := by
  rw [childrenOf, h, Option.map_some, hkind]

/-- A loaded directory keeps its children. -/
theorem Extends.childrenOf (h : s.Extends s') (hnode : s.nodes.lookup ino = some node)
    (hkind : node.kind = .dir children) : s'.childrenOf ino = children := by
  obtain ⟨node', hnode', hup⟩ := h.nodes ino node hnode
  rcases hup.kind with hsame | ⟨t, _, hlazy, -⟩
  · exact childrenOf_dir hnode' (hsame.trans hkind)
  · rw [hkind] at hlazy
    cases hlazy

/-! ## What a directory shows -/

/-- The inode shows a node of a stored tree. -/
def ShowsNode (symlinkTarget : Node → String) (s : Stash) (parent : INodeNo) (time : Int)
    (ino : INodeNo) (node : Node) : Prop :=
  ∃ kind fsNode, nodeKind symlinkTarget node = some kind ∧ s.nodes.lookup ino = some fsNode ∧
    FsNode.Upgrades ⟨ino, parent, nodeToFileattr ino time node, kind⟩ fsNode

/-- The directory shows the nodes of a tree that have a kind, and nothing else. -/
structure Shows (symlinkTarget : Node → String) (s : Stash) (ino : INodeNo) (time : Int)
    (tree : List Node) : Prop where
  listed : ∀ name child, (s.childrenOf ino).lookup name = some child →
    ∃ node ∈ tree, node.name = name ∧ s.ShowsNode symlinkTarget ino time child node
  complete : ∀ node ∈ tree, (nodeKind symlinkTarget node).isSome →
    ∃ child, (s.childrenOf ino).lookup node.name = some child

theorem Shows.of_extends (h : s.Shows symlinkTarget ino time tree) (hext : s.Extends s')
    (hnode : s.nodes.lookup ino = some node) (hkind : node.kind = .dir children) :
    s'.Shows symlinkTarget ino time tree := by
  have hchildren : s'.childrenOf ino = s.childrenOf ino :=
    (hext.childrenOf hnode hkind).trans (childrenOf_dir hnode hkind).symm
  constructor
  · intro name child hchild
    rw [hchildren] at hchild
    obtain ⟨n, hmem, hname, kind, fsNode, hn, hlookup, hup⟩ := h.listed name child hchild
    obtain ⟨fsNode', hlookup', hup'⟩ := hext.nodes child fsNode hlookup
    exact ⟨n, hmem, hname, kind, fsNode', hn, hlookup', hup.trans hup'⟩
  · intro n hmem husable
    rw [hchildren]
    exact h.complete n hmem husable

/-! ## Listings -/

theorem mem_childEntries {entry : INodeNo × FileType × String} :
    entry ∈ s.childEntries children ↔ ∃ fsNode, children.lookup entry.2.2 = some entry.1 ∧
      s.nodes.lookup entry.1 = some fsNode ∧ fsNode.attr.kind = entry.2.1 := by
  obtain ⟨child, fileType, name⟩ := entry
  simp only [childEntries, List.mem_filterMap, mem_sortByKey, Option.map_eq_some_iff, Prod.exists,
    Prod.mk.injEq, Table.mem_toList]
  constructor
  · rintro ⟨name', child', hchild, fsNode, hnode, rfl, hkind, rfl⟩
    exact ⟨fsNode, hchild, hnode, hkind⟩
  · rintro ⟨fsNode, hchild, hnode, hkind⟩
    exact ⟨name, child, hchild, fsNode, hnode, rfl, hkind, rfl⟩

/-- No name is listed twice. -/
theorem childEntries_names_nodup : ((s.childEntries children).map fun e => e.2.2).Nodup := by
  have hkeys : ((sortByKey Prod.fst (Table.toList children)).map Prod.fst).Nodup := by
    refine ((perm_sortByKey Prod.fst (Table.toList children)).map Prod.fst).nodup_iff.mpr ?_
    rw [Table.toList, List.map_map]
    exact children.nodupKeys
  refine hkeys.sublist ?_
  rw [childEntries, List.map_filterMap]
  generalize sortByKey Prod.fst (Table.toList children) = l
  induction l with
  | nil => exact List.Sublist.slnil
  | cons binding l ih =>
    obtain ⟨name, childIno⟩ := binding
    rw [List.filterMap_cons, List.map_cons]
    dsimp only
    cases s.nodes.lookup childIno with
    | none => exact ih.cons _
    | some fsNode => exact ih.cons_cons _

/-- The listing of a directory does not change once it is loaded. -/
theorem Extends.entries (hwf : s.Wf) (h : s.Extends s') {node' : FsNode}
    (hnode : s.nodes.lookup ino = some node) (hnode' : s'.nodes.lookup ino = some node')
    (hloaded : ∀ t, node.kind ≠ .lazyDir t) : s'.entries node' = s.entries node := by
  obtain ⟨_, hlookup, hup⟩ := h.nodes ino node hnode
  cases hnode'.symm.trans hlookup
  have hkind : node'.kind = node.kind := hup.kind.resolve_right fun ⟨t, _, hlazy, _⟩ => hloaded t hlazy
  rw [Stash.entries, Stash.entries, hup.inode, hup.parent, hup.attr_kind, hkind]
  cases hdir : node.kind with
  | dir children =>
    congr 2
    dsimp only
    rw [childEntries, childEntries]
    apply List.filterMap_congr
    rintro ⟨name, child⟩ hmem
    rw [mem_sortByKey, Table.mem_toList] at hmem
    rw [← childrenOf_dir hnode hdir, ← hwf.agree] at hmem
    obtain ⟨-, fsNode, hchild, -⟩ := hwf.bound ino name child hmem
    obtain ⟨fsNode', hchild', hup'⟩ := h.nodes child fsNode hchild
    simp only [hchild, hchild', Option.map_some, hup'.attr_kind]
  | lazyDir t => exact absurd hdir (hloaded t)
  | file blobs => rfl
  | symlink target => rfl

end Stash

end Mapache
