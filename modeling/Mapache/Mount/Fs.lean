import Mapache.Mount.Cache
import Mapache.Mount.Stash
import Mapache.Utils.Hex

/-!
# The mounted file system

`MapacheFS` of `mount/fuse/fs.rs`. Requests are handled one at a time (`n_threads` is 1), each with
what the loader gives while it is handled. `run` handles a sequence of requests.
-/

set_option autoImplicit false

namespace Mapache

open Lib

/-- What a mount needs of a snapshot. -/
structure MountedSnapshot where
  id : ID
  tree : ID
  timestamp : Int

/-- What the code calls: the reader of trees, the text of a symlink node's target, and
`pretty_print_timestamp` with the format of `init`. -/
structure MountEnv where
  codec : TreeCodec
  symlinkTarget : Node → String
  prettyPrintTimestamp : Int → String

/-- `MapacheFS`. -/
structure MapacheFS where
  /-- A repository is mounted. -/
  repo : Bool
  stash : Stash
  treeCache : TreeCache
  blobCache : BlobCache
  metadataOnly : Bool
  archiveRootTree : Option ID

namespace MapacheFS

/-- The file system that `mount` starts. -/
def mount (repo : Bool) (archiveRootTree : Option ID) (metadataOnly : Bool) (dataCacheSize : Nat)
    (createdTime : Int) : MapacheFS where
  repo := repo
  stash := .new createdTime
  treeCache := .new 512
  blobCache := .new dataCacheSize
  metadataOnly := metadataOnly
  archiveRootTree := archiveRootTree

/-! ## Loading a directory -/

/-- The second locked section of `ensure_loaded`, with the tree that was loaded. -/
def finishLoad (symlinkTarget : Node → String) (parentCrtime : Int) (ino : INodeNo) (tree : List Node)
    (s : Stash) : Stash :=
  match (s.getNode ino).map FsNode.kind with
  | some (.lazyDir _) =>
    let (childrenNodes, s) := loadChildren symlinkTarget parentCrtime s tree
    s.upgradeLazyDir ino childrenNodes
  | _ => s

/-- `ensure_loaded`. The result tells whether it succeeded. -/
def ensureLoaded (env : MountEnv) (loadBlob : ID → Option Bytes) (fs : MapacheFS) (ino : INodeNo) :
    Bool × MapacheFS :=
  match fs.stash.getNode ino with
  | none => (true, fs)
  | some node =>
    match node.kind with
    | .lazyDir treeId =>
      match fs.treeCache.load loadBlob env.codec treeId with
      | (none, treeCache) => (false, { fs with treeCache })
      | (some tree, treeCache) =>
        (true, { fs with
          treeCache
          stash := finishLoad env.symlinkTarget node.attr.crtime ino tree fs.stash })
    | _ => (true, fs)

/-! ## Requests -/

/-- The name of a snapshot in `by_date`. -/
def dateName (env : MountEnv) (snapshot : MountedSnapshot) : String :=
  env.prettyPrintTimestamp snapshot.timestamp ++ " - " ++ snapshot.id.toShortHex 4

/-- `init`, with the snapshots that could be loaded. -/
def init (env : MountEnv) (snapshots : List MountedSnapshot) (fs : MapacheFS) : MapacheFS :=
  match fs.archiveRootTree with
  | some rootTreeId => { fs with stash := fs.stash.upgradeRootToLazyDir rootTreeId }
  | none =>
    if fs.repo then
      let snapshots := sortByKey MountedSnapshot.timestamp snapshots
      let (snapshotsIno, stash) := fs.stash.addDir INodeNo.root "snapshots"
      let (idsIno, stash) := stash.addDir snapshotsIno "ids"
      let stash := snapshots.foldl
        (fun stash snapshot => (stash.addSnapshotDir idsIno snapshot.id.toHex snapshot.tree).2) stash
      let (byDateIno, stash) := stash.addDir snapshotsIno "by_date"
      let stash := snapshots.foldl
        (fun stash snapshot =>
          (stash.addSymlink byDateIno (dateName env snapshot) ("../ids/" ++ snapshot.id.toHex)).2)
        stash
      match snapshots.getLast? with
      | none => { fs with stash }
      | some latest =>
        let stash := (stash.addSymlink idsIno "latest" latest.id.toHex).2
        { fs with stash := (stash.addSymlink byDateIno "latest" (dateName env latest)).2 }
    else fs

/-- The errors of the replies. -/
inductive Errno where
  | enoent
  | eacces
  | eio
  deriving DecidableEq

/-- A request. `page` is the number of entries that the buffer of a `readdir` takes. -/
inductive Request where
  | init (snapshots : List MountedSnapshot)
  | lookup (parent : INodeNo) (name : String)
  | getattr (ino : INodeNo)
  | readdir (ino : INodeNo) (offset page : Nat)
  | open (ino : INodeNo)
  | read (ino : INodeNo) (offset size : Nat)
  | readlink (ino : INodeNo)

/-- What a request is answered with. -/
inductive Reply where
  | ok
  | attr (attr : FileAttr)
  | entries (entries : List (INodeNo × FileType × String))
  | opened (handle : Nat)
  | data (data : Bytes)
  | target (target : String)
  | error (errno : Errno)

/-- `lookup`. -/
def lookup (env : MountEnv) (loadBlob : ID → Option Bytes) (fs : MapacheFS) (parent : INodeNo)
    (name : String) : Reply × MapacheFS :=
  match fs.stash.getAttrByName parent name with
  | some attr => (.attr attr, fs)
  | none =>
    match fs.ensureLoaded env loadBlob parent with
    | (false, fs) => (.error .enoent, fs)
    | (true, fs) =>
      match fs.stash.getAttrByName parent name with
      | some attr => (.attr attr, fs)
      | none => (.error .enoent, fs)

/-- `getattr`. -/
def getattr (fs : MapacheFS) (ino : INodeNo) : Reply :=
  match fs.stash.getAttr ino with
  | some attr => .attr attr
  | none => .error .enoent

/-- `readdir`. The buffer is full after `page` entries. -/
def readdir (env : MountEnv) (loadBlob : ID → Option Bytes) (fs : MapacheFS) (ino : INodeNo)
    (offset page : Nat) : Reply × MapacheFS :=
  match fs.ensureLoaded env loadBlob ino with
  | (false, fs) => (.error .eio, fs)
  | (true, fs) => (.entries ((fs.stash.readDir ino offset).take page), fs)

/-- `open`. -/
def openFile (fs : MapacheFS) (ino : INodeNo) : Reply :=
  match fs.stash.getAttr ino with
  | some attr =>
    if attr.kind = .regularFile then
      if fs.metadataOnly then .error .eacces else .opened ino
    else .error .eacces
  | none => .error .enoent

/-- The running positions of `read`: where the next blob starts, how much is still wanted and from
where, and what was read. `remainingSize` is a `u32`, the positions are `u64`. -/
structure ReadPos where
  filePos : Nat
  remainingSize : Nat
  currentOffset : Nat
  buffer : Bytes

/-- The body of the loop of `read` for a blob that was loaded. -/
def ReadPos.advance (p : ReadPos) (blobData : Bytes) : ReadPos :=
  let blobLen := blobData.length
  let blobEnd := p.filePos + blobLen
  if blobEnd ≤ p.currentOffset then { p with filePos := p.filePos + blobLen }
  else
    let startInBlob := p.currentOffset - p.filePos
    let bytesAvailable := blobLen - startInBlob
    let bytesToRead := min bytesAvailable p.remainingSize
    let p :=
      if 0 < bytesToRead then
        { p with
          buffer := p.buffer ++ (blobData.drop startInBlob).take bytesToRead
          remainingSize := p.remainingSize - bytesToRead % 2 ^ 32
          currentOffset := p.currentOffset + bytesToRead }
      else p
    { p with filePos := p.filePos + blobLen }

/-- The loop of `read`. -/
def readLoop (loadBlob : ID → Option Bytes) : List ID → ReadPos → BlobCache → Option Bytes × BlobCache
  | [], p, cache => (some p.buffer, cache)
  | id :: ids, p, cache =>
    if p.remainingSize = 0 then (some p.buffer, cache)
    else
      match cache.load loadBlob id with
      | (none, cache) => (none, cache)
      | (some blobData, cache) => readLoop loadBlob ids (p.advance blobData) cache

/-- `read`. -/
def read (loadBlob : ID → Option Bytes) (fs : MapacheFS) (ino : INodeNo) (offset size : Nat) :
    Reply × MapacheFS :=
  if fs.metadataOnly then (.error .eacces, fs)
  else
    match (fs.stash.getNode ino).map FsNode.kind with
    | some (.file blobs) =>
      match readLoop loadBlob blobs ⟨0, size, offset, []⟩ fs.blobCache with
      | (some data, blobCache) => (.data data, { fs with blobCache })
      | (none, blobCache) => (.error .eio, { fs with blobCache })
    | _ => (.error .eio, fs)

/-- `readlink`. -/
def readlink (fs : MapacheFS) (ino : INodeNo) : Reply :=
  match fs.stash.readLink ino with
  | some target => .target target
  | none => .error .enoent

/-- A request is handled. -/
def handle (env : MountEnv) (loadBlob : ID → Option Bytes) (fs : MapacheFS) :
    Request → Reply × MapacheFS
  | .init snapshots => (.ok, fs.init env snapshots)
  | .lookup parent name => fs.lookup env loadBlob parent name
  | .getattr ino => (fs.getattr ino, fs)
  | .readdir ino offset page => fs.readdir env loadBlob ino offset page
  | .open ino => (fs.openFile ino, fs)
  | .read ino offset size => fs.read loadBlob ino offset size
  | .readlink ino => (fs.readlink ino, fs)

/-- The state after a sequence of requests, each with what the loader gives while it is handled. -/
def run (env : MountEnv) (fs : MapacheFS) (requests : List (Request × (ID → Option Bytes))) :
    MapacheFS :=
  requests.foldl (fun fs (request, loadBlob) => (fs.handle env loadBlob request).2) fs

end MapacheFS

end Mapache
