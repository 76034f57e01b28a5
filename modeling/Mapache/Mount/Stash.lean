import Mapache.Fs.Tree

/-!
# The inodes of a mount

`Stash` of `mount/fuse/stash.rs`: the nodes of the mounted file system under their inode numbers,
and `pathCache`, which leads from a directory and a name to an inode. A directory of a stored tree
is lazy until it is looked into (`upgradeLazyDir`).
-/

set_option autoImplicit false

namespace Mapache

open Lib

/-- `INodeNo`. -/
abbrev INodeNo := Nat

/-- `INodeNo::ROOT`. -/
def INodeNo.root : INodeNo := 1

/-- `BLKSIZE`. -/
def blksize : Nat := 512

/-- `fuser::FileType`. -/
inductive FileType where
  | regularFile
  | directory
  | symlink
  | blockDevice
  | charDevice
  | namedPipe
  | socket
  deriving DecidableEq

/-- `FileAttr`. Times are nanoseconds. -/
structure FileAttr where
  ino : INodeNo
  size : Nat
  blocks : Nat
  atime : Int
  mtime : Int
  ctime : Int
  crtime : Int
  kind : FileType
  perm : Nat
  nlink : Nat
  uid : Nat
  gid : Nat
  rdev : Nat
  flags : Nat
  blksize : Nat
  deriving DecidableEq

/-- `NodeKind`. -/
inductive NodeKind where
  /-- A directory that is loaded. -/
  | dir (children : Table String INodeNo)
  /-- A directory of a stored tree that is not loaded yet. -/
  | lazyDir (treeId : ID)
  | file (blobs : List ID)
  | symlink (target : String)

/-- `FsNode`. -/
structure FsNode where
  inode : INodeNo
  parent : INodeNo
  attr : FileAttr
  kind : NodeKind

/-- `Stash`. -/
structure Stash where
  inoCounter : Nat
  nodes : Table INodeNo FsNode
  pathCache : Table (INodeNo × String) INodeNo
  createdTime : Int

/-- The links of a fresh node. -/
def initialNlink (kind : FileType) : Nat := if kind = .directory then 2 else 1

/-- `simple_attr`. -/
def simpleAttr (ino : INodeNo) (kind : FileType) (size : Nat) (time : Int) : FileAttr where
  ino := ino
  size := size
  blocks := (size + blksize - 1) / blksize
  atime := time
  mtime := time
  ctime := time
  crtime := time
  kind := kind
  perm := 0o755
  nlink := initialNlink kind
  uid := 0
  gid := 0
  rdev := 0
  flags := 0
  blksize := blksize

/-- The file type of a node type. -/
def NodeType.fileType : NodeType → FileType
  | .file => .regularFile
  | .directory => .directory
  | .symlink => .symlink
  | .blockDevice => .blockDevice
  | .charDevice => .charDevice
  | .fifo => .namedPipe
  | .socket => .socket

/-- `node_to_fileattr`. -/
def nodeToFileattr (ino : INodeNo) (parentTime : Int) (node : Node) : FileAttr where
  ino := ino
  size := node.metadata.size
  blocks := (node.metadata.size + blksize - 1) / blksize
  atime := node.metadata.accessedTime.getD parentTime
  mtime := node.metadata.modifiedTime.getD parentTime
  ctime := node.metadata.createdTime.getD parentTime
  crtime := node.metadata.createdTime.getD parentTime
  kind := node.nodeType.fileType
  perm := node.metadata.mode.getD 0o755 % 2 ^ 16
  nlink := initialNlink node.nodeType.fileType
  uid := node.metadata.ownerUid.getD 0
  gid := node.metadata.ownerGid.getD 0
  rdev := node.metadata.rdev.getD 0 % 2 ^ 32
  flags := 0
  blksize := blksize

namespace Stash

/-- `Stash::new`. -/
def new (createdTime : Int) : Stash where
  inoCounter := INodeNo.root
  nodes := (∅ : Table INodeNo FsNode).insert INodeNo.root
    ⟨INodeNo.root, INodeNo.root, simpleAttr INodeNo.root .directory 0 createdTime, .dir ∅⟩
  pathCache := ∅
  createdTime := createdTime

/-- `insert_entry`. -/
def insertEntry (s : Stash) (parentIno : INodeNo) (name : String) (attr : FileAttr) (kind : NodeKind) :
    Stash :=
  let nodes := s.nodes.insert attr.ino ⟨attr.ino, parentIno, attr, kind⟩
  { s with
    pathCache := s.pathCache.insert (parentIno, name) attr.ino
    nodes :=
      match nodes.lookup parentIno with
      | some parent =>
        match parent.kind with
        | .dir children =>
          nodes.insert parentIno { parent with kind := .dir (children.insert name attr.ino) }
        | _ => nodes
      | none => nodes }

/-- `next_ino`. -/
def nextIno (s : Stash) : INodeNo × Stash := (s.inoCounter + 1, { s with inoCounter := s.inoCounter + 1 })

/-- `create_attr`, then `insert_entry`. -/
def addEntry (s : Stash) (parent : INodeNo) (name : String) (fileType : FileType) (size : Nat)
    (kind : NodeKind) : INodeNo × Stash :=
  (s.nextIno.1,
    s.nextIno.2.insertEntry parent name (simpleAttr s.nextIno.1 fileType size s.createdTime) kind)

/-- `add_dir`. -/
def addDir (s : Stash) (parent : INodeNo) (name : String) : INodeNo × Stash :=
  s.addEntry parent name .directory 0 (.dir ∅)

/-- `add_snapshot_dir`. -/
def addSnapshotDir (s : Stash) (parent : INodeNo) (name : String) (treeId : ID) : INodeNo × Stash :=
  s.addEntry parent name .directory 0 (.lazyDir treeId)

/-- `add_symlink`. -/
def addSymlink (s : Stash) (parent : INodeNo) (name target : String) : INodeNo × Stash :=
  s.addEntry parent name .symlink target.utf8ByteSize (.symlink target)

/-- `get_node`. -/
def getNode (s : Stash) (ino : INodeNo) : Option FsNode := s.nodes.lookup ino

/-- `get_attr`. -/
def getAttr (s : Stash) (ino : INodeNo) : Option FileAttr := (s.nodes.lookup ino).map FsNode.attr

/-- `get_attr_by_name`. -/
def getAttrByName (s : Stash) (parent : INodeNo) (name : String) : Option FileAttr :=
  (s.pathCache.lookup (parent, name)).bind s.getAttr

/-- The children of a directory in the order of their names, with the inodes that exist. -/
def childEntries (s : Stash) (children : Table String INodeNo) : List (INodeNo × FileType × String) :=
  (sortByKey Prod.fst (Table.toList children)).filterMap fun (name, childIno) =>
    (s.nodes.lookup childIno).map fun child => (childIno, child.attr.kind, name)

/-- All entries of a directory. -/
def entries (s : Stash) (node : FsNode) : List (INodeNo × FileType × String) :=
  (node.inode, node.attr.kind, ".") :: (node.parent, .directory, "..") ::
    match node.kind with
    | .dir children => s.childEntries children
    | _ => []

/-- `read_dir`. -/
def readDir (s : Stash) (ino : INodeNo) (offset : Nat) : List (INodeNo × FileType × String) :=
  match s.nodes.lookup ino with
  | none => []
  | some node => (s.entries node).drop offset

/-- `read_link`. -/
def readLink (s : Stash) (ino : INodeNo) : Option String :=
  (s.nodes.lookup ino).bind fun node =>
    match node.kind with
    | .symlink target => some target
    | _ => none

/-- A child of a directory that is being loaded. -/
structure Child where
  name : String
  kind : NodeKind
  attr : FileAttr

/-- The node of a child. -/
def Child.node (child : Child) (parent : INodeNo) : FsNode :=
  ⟨child.attr.ino, parent, child.attr, child.kind⟩

/-- `upgrade_lazy_dir`. -/
def upgradeLazyDir (s : Stash) (ino : INodeNo) (childrenNodes : List Child) : Stash :=
  let nodes := childrenNodes.foldl (fun m child => m.insert child.attr.ino (child.node ino)) s.nodes
  let pathCache := childrenNodes.foldl (fun m child => m.insert (ino, child.name) child.attr.ino)
    s.pathCache
  let childrenMap := childrenNodes.foldl (fun m child => m.insert child.name child.attr.ino)
    (∅ : Table String INodeNo)
  { s with
    pathCache
    nodes :=
      match nodes.lookup ino with
      | none => nodes
      | some node =>
        let attr :=
          if node.attr.kind = .directory then
            { node.attr with nlink := 2 + childrenMap.keys.length % 2 ^ 32 }
          else node.attr
        nodes.insert ino { node with attr, kind := .dir childrenMap } }

/-- `upgrade_root_to_lazy_dir`. -/
def upgradeRootToLazyDir (s : Stash) (treeId : ID) : Stash :=
  match s.nodes.lookup INodeNo.root with
  | none => s
  | some node => { s with nodes := s.nodes.insert INodeNo.root { node with kind := .lazyDir treeId } }

end Stash

/-- The kind of a node of a stored tree. A directory without a tree has none. -/
def nodeKind (symlinkTarget : Node → String) (node : Node) : Option NodeKind :=
  match node.nodeType with
  | .directory => node.tree.map .lazyDir
  | .symlink => some (.symlink (symlinkTarget node))
  | _ => some (.file (node.blobs.getD []))

/-- The loop of `ensure_loaded` over the nodes of a tree. A skipped node has taken an inode number.
-/
def loadChildren (symlinkTarget : Node → String) (parentCrtime : Int) :
    Stash → List Node → List Stash.Child × Stash
  | s, [] => ([], s)
  | s, node :: nodes =>
    let rest := loadChildren symlinkTarget parentCrtime s.nextIno.2 nodes
    match nodeKind symlinkTarget node with
    | none => rest
    | some kind =>
      (⟨node.name, kind, nodeToFileattr s.nextIno.1 parentCrtime node⟩ :: rest.1, rest.2)

end Mapache
