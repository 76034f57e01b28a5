import Mathlib.Data.String.Basic
import Mapache.Common
import Mapache.Lib.Table

/-!
# Paths, nodes and trees

The data of `fs/node.rs` and `fs/tree.rs`. A stored tree is the serialized list of the nodes of one
directory; a directory node has the ID of the tree below it and a file node the IDs of its blobs.
The serialization itself is a parameter (`TreeCodec`).

`TreeOf` and `Closure` say which trees and blobs a root tree refers to. They follow the IDs through
`plain`, the bytes behind each ID, and do not ask where the bytes are stored.
-/

set_option autoImplicit false

namespace Mapache

open Lib

/-! ## Paths -/

/-- The length of a UTF-8 sequence and the bounds of its second byte, by its first byte. -/
def utf8Lead (b : UInt8) : Option (Nat × UInt8 × UInt8) :=
  if 0xc2 ≤ b ∧ b ≤ 0xdf then some (2, 0x80, 0xbf)
  else if b = 0xe0 then some (3, 0xa0, 0xbf)
  else if b = 0xed then some (3, 0x80, 0x9f)
  else if 0xe1 ≤ b ∧ b ≤ 0xef then some (3, 0x80, 0xbf)
  else if b = 0xf0 then some (4, 0x90, 0xbf)
  else if 0xf1 ≤ b ∧ b ≤ 0xf3 then some (4, 0x80, 0xbf)
  else if b = 0xf4 then some (4, 0x80, 0x8f)
  else none

/-- The continuation bytes, at most `n`, at the front of a string. -/
def utf8Tail (lo hi : UInt8) : Nat → Bytes → Bytes
  | n + 1, b :: bs => if lo ≤ b ∧ b ≤ hi then b :: utf8Tail 0x80 0xbf n bs else []
  | _, _ => []

/-- The first character of a string, or none where it is ill formed, and the bytes it takes. -/
def utf8Next : Bytes → Option Char × Nat
  | [] => (none, 1)
  | b :: bs =>
    if b < 0x80 then (some (Char.ofNat b.toNat), 1)
    else match utf8Lead b with
      | none => (none, 1)
      | some (len, lo, hi) =>
        let cont := utf8Tail lo hi (len - 1) bs
        let lead := b.toNat % 2 ^ (7 - len)
        if cont.length = len - 1 then
          (some (Char.ofNat (cont.foldl (fun x c => x * 64 + c.toNat % 64) lead)), len)
        else (none, 1 + cont.length)

/-- `to_string_lossy`: each maximal ill-formed part becomes U+FFFD. -/
def toStringLossy (name : Bytes) : String := String.ofList (go name.length name)
where
  go : Nat → Bytes → List Char
    | n + 1, b :: bs =>
      let next := utf8Next (b :: bs)
      next.1.getD (Char.ofNat 0xfffd) :: go n ((b :: bs).drop next.2)
    | _, _ => []

/-- A component of a normalized path. -/
inductive Component where
  | rootDir
  | normal (name : Bytes)
  deriving DecidableEq

/-- A normalized path. -/
abbrev Path := List Component

/-- `extract_parent`: neither a root nor the empty path has a parent. -/
def extractParent (path : Path) : Option Path :=
  match path.getLast? with
  | some (.normal _) => some path.dropLast
  | _ => none

/-- `Path::file_name`. -/
def fileName (path : Path) : Option Bytes :=
  match path.getLast? with
  | some (.normal name) => some name
  | _ => none

/-! ## Nodes -/

inductive NodeType where
  | file
  | directory
  | symlink
  | blockDevice
  | charDevice
  | fifo
  | socket
  deriving DecidableEq, Inhabited

/-- The metadata of a node. Times are nanoseconds, and the extended attributes are in the order of
their names. -/
structure Metadata where
  size : Nat := 0
  accessedTime : Option Int := none
  createdTime : Option Int := none
  modifiedTime : Option Int := none
  mode : Option Nat := none
  ownerUid : Option Nat := none
  ownerGid : Option Nat := none
  inode : Option Nat := none
  dev : Option Nat := none
  nlink : Option Nat := none
  rdev : Option Nat := none
  extendedAttributes : Option (List (String × Bytes)) := none
  windowsAttributes : Option Nat := none
  linuxFlags : Option Nat := none
  deriving DecidableEq, Inhabited

/-- A node of a directory. -/
structure Node where
  name : String
  nodeType : NodeType := .file
  metadata : Metadata := default
  blobs : Option (List ID) := none
  tree : Option ID := none
  deriving DecidableEq

namespace Node

def isDir (node : Node) : Bool := node.nodeType = .directory

def isFile (node : Node) : Bool := node.nodeType = .file

/-- `Node::is_modified_hint`. -/
def isModifiedHint (node other : Node) : Bool :=
  node.metadata.size ≠ other.metadata.size ∨
    node.metadata.modifiedTime ≠ other.metadata.modifiedTime ∨
    node.metadata.createdTime ≠ other.metadata.createdTime ∨
    node.metadata.inode ≠ other.metadata.inode

/-- `Node::from_path_sync` leaves the content of a node open. -/
def Bare (node : Node) : Prop := node.blobs = none ∧ node.tree = none

end Node

/-! ## Trees -/

/-- The names of the nodes increase. -/
def NamesIncrease (nodes : List Node) : Prop := nodes.Pairwise fun a b => a.name < b.name

/-- The serialization of the nodes of a directory, which may fail. What is written is read back. -/
structure TreeCodec where
  toVec : List Node → Option Bytes
  fromSlice : Bytes → Option (List Node)
  fromSlice_toVec : ∀ nodes bytes, toVec nodes = some bytes → fromSlice bytes = some nodes

/-- A serialization that knows one tree. -/
def TreeCodec.single (tree : List Node) (data : Bytes) : TreeCodec where
  toVec := fun nodes => if nodes = tree then some data else none
  fromSlice := fun bytes => if bytes = data then some tree else none
  fromSlice_toVec := by
    intro nodes bytes h
    split at h
    · cases h
      rename_i hnodes
      rw [if_pos rfl, hnodes]
    · cases h

theorem TreeCodec.toVec_single {tree : List Node} {data : Bytes} :
    (single tree data).toVec tree = some data := by
  simp [single]

/-- A serialization that knows these trees and writes the position. -/
def TreeCodec.ofList (trees : List (List Node)) : TreeCodec where
  toVec nodes := if nodes ∈ trees then some (List.replicate (trees.idxOf nodes) 0) else none
  fromSlice bytes := trees[bytes.length]?
  fromSlice_toVec := by
    intro nodes bytes h
    split at h
    · rename_i hmem
      cases h
      rw [List.length_replicate]
      exact List.getElem?_idxOf hmem
    · cases h

section Closure

variable (codec : TreeCodec) (plain : ID → Bytes)

/-- The tree has the node. -/
def NodeOf (t : ID) (node : Node) : Prop :=
  ∃ nodes, codec.fromSlice (plain t) = some nodes ∧ node ∈ nodes

/-- The trees below a root tree. -/
inductive TreeOf (root : ID) : ID → Prop where
  | root : TreeOf root root
  | sub {t t' : ID} {node : Node} : TreeOf root t → NodeOf codec plain t node →
      node.tree = some t' → TreeOf root t'

/-- The closure of a root tree: its trees and the blobs of their nodes. -/
inductive Closure (root : ID) : ID → Prop where
  | tree {t : ID} : TreeOf codec plain root t → Closure root t
  | blob {t id : ID} {node : Node} {ids : List ID} : TreeOf codec plain root t →
      NodeOf codec plain t node → node.blobs = some ids → id ∈ ids → Closure root id

variable {codec plain}

/-- The trees below a subtree are trees below the root. -/
theorem TreeOf.trans {root t t' : ID} (h : TreeOf codec plain root t)
    (h' : TreeOf codec plain t t') : TreeOf codec plain root t' := by
  induction h' with
  | root => exact h
  | sub _ hnode htree ih => exact .sub ih hnode htree

/-- A tree below a root is the root, or it lies below the subtree of one of the root's nodes. -/
theorem TreeOf.eq_or_sub {root t : ID} (h : TreeOf codec plain root t) :
    t = root ∨ ∃ node sub, NodeOf codec plain root node ∧ node.tree = some sub ∧
      TreeOf codec plain sub t := by
  induction h with
  | root => exact Or.inl rfl
  | @sub t t' node _ hnode htree ih =>
    rcases ih with rfl | ⟨node', sub, hnode', hsub, ht⟩
    · exact Or.inr ⟨node, t', hnode, htree, .root⟩
    · exact Or.inr ⟨node', sub, hnode', hsub, .sub ht hnode htree⟩

/-- **The closure of a tree, by the nodes of the tree**: the tree itself, the blobs of its nodes and
the closures of their subtrees. -/
theorem Closure.cases_root {root id : ID} (h : Closure codec plain root id) :
    id = root ∨
      (∃ node ids, NodeOf codec plain root node ∧ node.blobs = some ids ∧ id ∈ ids) ∨
      ∃ node sub, NodeOf codec plain root node ∧ node.tree = some sub ∧
        Closure codec plain sub id := by
  cases h with
  | tree ht =>
    rcases ht.eq_or_sub with rfl | ⟨node, sub, hnode, hsub, ht'⟩
    · exact Or.inl rfl
    · exact Or.inr (Or.inr ⟨node, sub, hnode, hsub, .tree ht'⟩)
  | blob ht hnode hblobs hid =>
    rcases ht.eq_or_sub with rfl | ⟨node, sub, hnode', hsub, ht'⟩
    · exact Or.inr (Or.inl ⟨_, _, hnode, hblobs, hid⟩)
    · exact Or.inr (Or.inr ⟨node, sub, hnode', hsub, .blob ht' hnode hblobs hid⟩)

end Closure

end Mapache
