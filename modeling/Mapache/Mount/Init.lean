import Mapache.Mount.Fs
import Mapache.Mount.View

/-!
# The directories of a mount before the first request

`init` adds entries to directories that it made itself. Each of them keeps the inodes consistent
(`Stash.Built.addEntry`), also where a name is taken a second time.
-/

set_option autoImplicit false

namespace Mapache

open Lib

namespace Stash

variable {s : Stash} {IsTree : ID → Prop} {dirs : List INodeNo} {parent : INodeNo} {name : String}
  {fileType : FileType} {size : Nat} {kind : NodeKind}

/-- The inode is a loaded directory. -/
def IsDir (s : Stash) (ino : INodeNo) : Prop :=
  ∃ node children, s.nodes.lookup ino = some node ∧ node.kind = .dir children

/-- The stash is consistent, `dirs` are loaded directories of it, and the lazy directories are
trees. -/
structure Built (IsTree : ID → Prop) (dirs : List INodeNo) (s : Stash) : Prop where
  wf : s.Wf
  dir : ∀ ino ∈ dirs, s.IsDir ino
  lazyDir : ∀ ino node t, s.nodes.lookup ino = some node → node.kind = .lazyDir t → IsTree t

/-- The only node is an empty root. -/
structure OnlyRoot (root : FsNode) (s : Stash) : Prop where
  lookup : ∀ ino, s.nodes.lookup ino = if ino = INodeNo.root then some root else none
  counter : s.inoCounter = INodeNo.root
  cached : s.pathCache = ∅
  inode : root.inode = INodeNo.root ∧ root.attr.ino = INodeNo.root
  empty : ∀ children, root.kind = .dir children → children = ∅

theorem OnlyRoot.of_lookup {root node : FsNode} {ino : INodeNo} (h : s.OnlyRoot root)
    (hnode : s.nodes.lookup ino = some node) : ino = INodeNo.root ∧ node = root := by
  rw [h.lookup] at hnode
  split at hnode
  · rename_i hino
    exact ⟨hino, (Option.some.inj hnode).symm⟩
  · cases hnode

theorem OnlyRoot.wf {root : FsNode} (h : s.OnlyRoot root) : s.Wf := by
  have hroot : s.nodes.lookup INodeNo.root = some root := by rw [h.lookup, if_pos rfl]
  have hcached : ∀ key, s.pathCache.lookup key = none := by
    intro key
    rw [h.cached]
    rfl
  refine ⟨?_, ⟨root, hroot⟩, fun parent name ino hbound => ?_, fun key key' ino hbound => ?_, ?_⟩
  · intro ino node hnode
    obtain ⟨rfl, rfl⟩ := h.of_lookup hnode
    exact ⟨h.inode.1, h.inode.2, h.counter.ge⟩
  · rw [hcached] at hbound
    cases hbound
  · rw [hcached] at hbound
    cases hbound
  · intro ino name
    rw [hcached]
    by_cases hino : ino = INodeNo.root
    · subst hino
      cases hkind : root.kind with
      | dir children =>
        rw [childrenOf_dir hroot hkind, h.empty children hkind]
        rfl
      | _ =>
        rw [childrenOf, hroot, Option.map_some, hkind]
        rfl
    · rw [childrenOf, h.lookup, if_neg hino]
      rfl

/-- The root of a fresh stash. -/
def newRoot (createdTime : Int) : FsNode :=
  ⟨INodeNo.root, INodeNo.root, simpleAttr INodeNo.root .directory 0 createdTime, .dir ∅⟩

theorem lookup_new (createdTime : Int) (ino : INodeNo) : (Stash.new createdTime).nodes.lookup ino =
    if ino = INodeNo.root then some (newRoot createdTime) else none := by
  rw [Stash.new, Table.lookup_insert_eq_ite]
  rfl

theorem built_new (createdTime : Int) : (Stash.new createdTime).Built IsTree [INodeNo.root] := by
  have honly : (Stash.new createdTime).OnlyRoot (newRoot createdTime) :=
    ⟨lookup_new createdTime, rfl, rfl, ⟨rfl, rfl⟩, fun children hdir => by cases hdir; rfl⟩
  refine ⟨honly.wf, fun ino hmem => ?_, fun ino node t hnode hlazy => ?_⟩
  · rw [List.mem_singleton] at hmem
    subst hmem
    exact ⟨newRoot createdTime, ∅, (lookup_new createdTime _).trans (if_pos rfl), rfl⟩
  · obtain ⟨-, rfl⟩ := honly.of_lookup hnode
    cases hlazy

/-- The root of a bundle becomes lazy. -/
theorem built_upgradeRootToLazyDir (createdTime : Int) {t : ID} (htree : IsTree t) :
    ((Stash.new createdTime).upgradeRootToLazyDir t).Built IsTree [] := by
  have hroot : (Stash.new createdTime).nodes.lookup INodeNo.root = some (newRoot createdTime) :=
    (lookup_new createdTime _).trans (if_pos rfl)
  have honly : ((Stash.new createdTime).upgradeRootToLazyDir t).OnlyRoot
      { newRoot createdTime with kind := .lazyDir t } := by
    rw [upgradeRootToLazyDir, hroot]
    refine ⟨fun ino => ?_, rfl, rfl, ⟨rfl, rfl⟩, nofun⟩
    rw [Table.lookup_insert_eq_ite, lookup_new]
    split <;> rfl
  refine ⟨honly.wf, nofun, fun ino node t' hnode hlazy => ?_⟩
  obtain ⟨-, rfl⟩ := honly.of_lookup hnode
  cases hlazy
  exact htree

/-! ## An entry is added -/

section Add

variable (name fileType size kind) {parentNode node : FsNode} {children : Table String INodeNo}
  {ino : INodeNo}

/-- The nodes after an entry was added to a directory. -/
theorem addEntry_lookup (hwf : s.Wf) (hparent : s.nodes.lookup parent = some parentNode)
    (hdir : parentNode.kind = .dir children) (ino : INodeNo) :
    (s.addEntry parent name fileType size kind).2.nodes.lookup ino =
      if ino = parent then
        some { parentNode with kind := .dir (children.insert name (s.inoCounter + 1)) }
      else if ino = s.inoCounter + 1 then
        some ⟨s.inoCounter + 1, parent, simpleAttr (s.inoCounter + 1) fileType size s.createdTime,
          kind⟩
      else s.nodes.lookup ino := by
  have hne : parent ≠ s.inoCounter + 1 := by
    have hle := (hwf.inode parent parentNode hparent).2.2
    exact Nat.ne_of_lt (Nat.lt_succ_of_le hle)
  simp only [addEntry, insertEntry, nextIno, simpleAttr, AList.lookup_insert_ne hne, hparent, hdir,
    Table.lookup_insert_eq_ite]

theorem addEntry_cached (parent' : INodeNo) (name' : String) :
    (s.addEntry parent name fileType size kind).2.pathCache.lookup (parent', name') =
      if (parent', name') = (parent, name) then some (s.inoCounter + 1)
      else s.pathCache.lookup (parent', name') :=
  Table.lookup_insert_eq_ite _ _ _ _

/-- A number that is in use is not the next one. -/
theorem Wf.ne_next (hwf : s.Wf) (hnode : s.nodes.lookup ino = some node) : ino ≠ s.inoCounter + 1 := by
  have hle := (hwf.inode ino node hnode).2.2
  exact Nat.ne_of_lt (Nat.lt_succ_of_le hle)

theorem addEntry_new (hwf : s.Wf) (hparent : s.nodes.lookup parent = some parentNode)
    (hdir : parentNode.kind = .dir children) :
    (s.addEntry parent name fileType size kind).2.nodes.lookup (s.inoCounter + 1) =
      some ⟨s.inoCounter + 1, parent, simpleAttr (s.inoCounter + 1) fileType size s.createdTime,
        kind⟩ := by
  rw [addEntry_lookup name fileType size kind hwf hparent hdir, if_neg (hwf.ne_next hparent).symm,
    if_pos rfl]

/-- Where the nodes come from after an entry was added. -/
theorem of_addEntry (hwf : s.Wf) (hparent : s.nodes.lookup parent = some parentNode)
    (hdir : parentNode.kind = .dir children)
    (h : (s.addEntry parent name fileType size kind).2.nodes.lookup ino = some node) :
    (ino = parent ∧
        node = { parentNode with kind := .dir (children.insert name (s.inoCounter + 1)) }) ∨
      (ino = s.inoCounter + 1 ∧ node =
        ⟨s.inoCounter + 1, parent, simpleAttr (s.inoCounter + 1) fileType size s.createdTime, kind⟩) ∨
      s.nodes.lookup ino = some node := by
  rw [addEntry_lookup name fileType size kind hwf hparent hdir] at h
  split at h
  · rename_i hself
    exact Or.inl ⟨hself, (Option.some.inj h).symm⟩
  · split at h
    · rename_i hnew
      exact Or.inr (Or.inl ⟨hnew, (Option.some.inj h).symm⟩)
    · exact Or.inr (Or.inr h)

/-- The nodes that there were keep their parents, and the directories stay directories. -/
theorem addEntry_keeps (hwf : s.Wf) (hparent : s.nodes.lookup parent = some parentNode)
    (hdir : parentNode.kind = .dir children) (hnode : s.nodes.lookup ino = some node) :
    ∃ node', (s.addEntry parent name fileType size kind).2.nodes.lookup ino = some node' ∧
      node'.parent = node.parent ∧
      (∀ c, node.kind = .dir c → ∃ c', node'.kind = .dir c') := by
  rw [addEntry_lookup name fileType size kind hwf hparent hdir]
  split
  · rename_i hself
    subst hself
    cases hnode.symm.trans hparent
    exact ⟨_, rfl, rfl, fun _ _ => ⟨_, rfl⟩⟩
  · rw [if_neg (hwf.ne_next hnode)]
    exact ⟨node, hnode, rfl, fun c hc => ⟨c, hc⟩⟩

theorem addEntry_childrenOf (hwf : s.Wf) (hparent : s.nodes.lookup parent = some parentNode)
    (hdir : parentNode.kind = .dir children) (hempty : ∀ c, kind = .dir c → c = ∅) (ino : INodeNo) :
    (s.addEntry parent name fileType size kind).2.childrenOf ino =
      if ino = parent then children.insert name (s.inoCounter + 1) else s.childrenOf ino := by
  rw [childrenOf, addEntry_lookup name fileType size kind hwf hparent hdir]
  by_cases hself : ino = parent
  · rw [if_pos hself, if_pos hself]
    rfl
  · rw [if_neg hself, if_neg hself]
    by_cases hnew : ino = s.inoCounter + 1
    · have hunused : s.nodes.lookup ino = none := by
        rw [Option.eq_none_iff_forall_ne_some]
        exact fun node hnode => hwf.ne_next hnode hnew
      rw [if_pos hnew, childrenOf, hunused]
      dsimp only [Option.map_some, Option.map_none]
      split
      · rename_i c hc
        exact hempty c (Option.some.inj hc)
      · rfl
    · rw [if_neg hnew]
      rfl

theorem Wf.addEntry (hwf : s.Wf) (hparent : s.nodes.lookup parent = some parentNode)
    (hdir : parentNode.kind = .dir children) (hempty : ∀ c, kind = .dir c → c = ∅) :
    (s.addEntry parent name fileType size kind).2.Wf := by
  have hnew : ∀ key, s.pathCache.lookup key ≠ some (s.inoCounter + 1) := by
    rintro ⟨parent', name'⟩ hbound
    obtain ⟨-, node, hnode, -⟩ := hwf.bound parent' name' _ hbound
    exact hwf.ne_next hnode rfl
  have hroot : ∃ node, s.nodes.lookup INodeNo.root = some node := hwf.root
  constructor
  · intro ino node h
    rcases of_addEntry name fileType size kind hwf hparent hdir h with ⟨rfl, rfl⟩ | ⟨rfl, rfl⟩ | hold
    · obtain ⟨hinode, hattr, hle⟩ := hwf.inode ino parentNode hparent
      exact ⟨hinode, hattr, Nat.le_succ_of_le hle⟩
    · exact ⟨rfl, rfl, Nat.le_refl _⟩
    · obtain ⟨hinode, hattr, hle⟩ := hwf.inode ino node hold
      exact ⟨hinode, hattr, Nat.le_succ_of_le hle⟩
  · obtain ⟨root, hlookup⟩ := hroot
    obtain ⟨root', hlookup', -⟩ := addEntry_keeps name fileType size kind hwf hparent hdir hlookup
    exact ⟨root', hlookup'⟩
  · intro parent' name' ino hbound
    rw [addEntry_cached] at hbound
    split at hbound
    · rename_i hkey
      cases hkey
      cases hbound
      obtain ⟨root, hlookup⟩ := hroot
      exact ⟨(hwf.ne_next hlookup).symm, _,
        addEntry_new name fileType size kind hwf hparent hdir, rfl⟩
    · obtain ⟨hne, node, hnode, hparent'⟩ := hwf.bound parent' name' ino hbound
      obtain ⟨node', hnode', hsame, -⟩ := addEntry_keeps name fileType size kind hwf hparent hdir hnode
      exact ⟨hne, node', hnode', hsame.trans hparent'⟩
  · rintro ⟨parent₁, name₁⟩ ⟨parent₂, name₂⟩ ino h₁ h₂
    rw [addEntry_cached] at h₁ h₂
    split at h₁ <;> split at h₂
    · rename_i hkey₁ hkey₂
      exact hkey₁.trans hkey₂.symm
    · cases h₁
      exact absurd h₂ (hnew _)
    · cases h₂
      exact absurd h₁ (hnew _)
    · exact hwf.distinct _ _ ino h₁ h₂
  · intro ino name'
    rw [addEntry_cached, addEntry_childrenOf name fileType size kind hwf hparent hdir hempty]
    by_cases hself : ino = parent
    · subst hself
      rw [if_pos rfl, Table.lookup_insert_eq_ite, hwf.agree, childrenOf_dir hparent hdir]
      simp only [Prod.mk.injEq, true_and]
    · rw [if_neg hself, if_neg fun hkey => hself (Prod.ext_iff.mp hkey).1]
      exact hwf.agree ino name'

/-- An entry is added to one of the directories. -/
theorem Built.addEntry (h : s.Built IsTree dirs) (hparent : parent ∈ dirs)
    (hempty : ∀ c, kind = .dir c → c = ∅) (htree : ∀ t, kind = .lazyDir t → IsTree t) :
    (s.addEntry parent name fileType size kind).2.Built IsTree dirs := by
  obtain ⟨parentNode, children, hlookup, hdir⟩ := h.dir parent hparent
  refine ⟨h.wf.addEntry name fileType size kind hlookup hdir hempty, ?_, ?_⟩
  · intro ino hmem
    obtain ⟨node, c, hnode, hc⟩ := h.dir ino hmem
    obtain ⟨node', hnode', -, hkeep⟩ :=
      addEntry_keeps name fileType size kind h.wf hlookup hdir hnode
    obtain ⟨c', hc'⟩ := hkeep c hc
    exact ⟨node', c', hnode', hc'⟩
  · intro ino node t hnode hlazy
    rcases of_addEntry name fileType size kind h.wf hlookup hdir hnode with
      ⟨-, rfl⟩ | ⟨-, rfl⟩ | hold
    · cases hlazy
    · exact htree t hlazy
    · exact h.lazyDir ino node t hold hlazy

end Add

/-- A directory is added, and entries may be added to it in turn. -/
theorem Built.addDir (h : s.Built IsTree dirs) (hparent : parent ∈ dirs) (name : String) :
    (s.addDir parent name).2.Built IsTree ((s.addDir parent name).1 :: dirs) := by
  have hbuilt : (s.addDir parent name).2.Built IsTree dirs :=
    h.addEntry name .directory 0 (.dir ∅) hparent (fun _ hc => by cases hc; rfl) nofun
  refine ⟨hbuilt.wf, fun ino hmem => ?_, hbuilt.lazyDir⟩
  rcases List.mem_cons.mp hmem with rfl | hmem
  · obtain ⟨parentNode, children, hlookup, hdir⟩ := h.dir parent hparent
    exact ⟨_, ∅, addEntry_new name .directory 0 (.dir ∅) h.wf hlookup hdir, rfl⟩
  · exact hbuilt.dir ino hmem

theorem Built.addSymlink (h : s.Built IsTree dirs) (hparent : parent ∈ dirs) (name target : String) :
    (s.addSymlink parent name target).2.Built IsTree dirs :=
  h.addEntry name .symlink target.utf8ByteSize (.symlink target) hparent nofun nofun

theorem Built.addSnapshotDir (h : s.Built IsTree dirs) (hparent : parent ∈ dirs) (name : String)
    {t : ID} (htree : IsTree t) : (s.addSnapshotDir parent name t).2.Built IsTree dirs :=
  h.addEntry name .directory 0 (.lazyDir t) hparent nofun fun t' ht' => by
    cases ht'
    exact htree

/-- Entries are added one by one. -/
theorem Built.foldl {β : Type} {f : Stash → β → Stash} (h : s.Built IsTree dirs) (l : List β)
    (hstep : ∀ s : Stash, ∀ x ∈ l, s.Built IsTree dirs → (f s x).Built IsTree dirs) :
    (l.foldl f s).Built IsTree dirs := by
  induction l generalizing s with
  | nil => exact h
  | cons x l ih =>
    exact ih (hstep s x List.mem_cons_self h) fun s y hy => hstep s y (List.mem_cons_of_mem _ hy)

end Stash

namespace MapacheFS

/-- What is mounted: the trees below the root of a bundle, or below those of the snapshots. -/
def Mounted (codec : TreeCodec) (plain : ID → Bytes) (archiveRootTree : Option ID)
    (snapshots : List MountedSnapshot) (t : ID) : Prop :=
  ∃ root, (archiveRootTree = some root ∨ ∃ snapshot ∈ snapshots, snapshot.tree = root) ∧
    TreeOf codec plain root t

theorem init_built (env : MountEnv) (plain : ID → Bytes) (repo : Bool) (archiveRootTree : Option ID)
    (metadataOnly : Bool) (dataCacheSize : Nat) (createdTime : Int)
    (snapshots : List MountedSnapshot) :
    ((mount repo archiveRootTree metadataOnly dataCacheSize createdTime).init env
    snapshots).stash.Built
      (Mounted env.codec plain archiveRootTree snapshots) [] := by
  have hweaken : ∀ {dirs : List INodeNo} {s : Stash},
      s.Built (Mounted env.codec plain archiveRootTree snapshots) dirs →
      s.Built (Mounted env.codec plain archiveRootTree snapshots) [] :=
    fun h => ⟨h.wf, nofun, h.lazyDir⟩
  cases archiveRootTree with
  | some root => exact Stash.built_upgradeRootToLazyDir createdTime ⟨root, Or.inl rfl, .root⟩
  | none =>
    cases repo with
    | false => exact hweaken (Stash.built_new createdTime)
    | true =>
      have htree : ∀ snapshot ∈ sortByKey MountedSnapshot.timestamp snapshots,
          Mounted env.codec plain none snapshots snapshot.tree := fun snapshot hmem =>
        ⟨snapshot.tree, Or.inr ⟨snapshot, mem_sortByKey.mp hmem, rfl⟩, .root⟩
      have hnew : (Stash.new createdTime).Built (Mounted env.codec plain none snapshots)
          [INodeNo.root] := Stash.built_new createdTime
      have hdirs := hnew.addDir List.mem_cons_self "snapshots"
      have hids := hdirs.addDir List.mem_cons_self "ids"
      have hsnapshots := hids.foldl (sortByKey MountedSnapshot.timestamp snapshots)
        fun s snapshot hmem h =>
          h.addSnapshotDir List.mem_cons_self snapshot.id.toHex (htree snapshot hmem)
      have hbyDate := hsnapshots.addDir (List.mem_cons_of_mem _ List.mem_cons_self) "by_date"
      have hlinks := hbyDate.foldl (sortByKey MountedSnapshot.timestamp snapshots)
        fun s snapshot hmem h =>
          h.addSymlink List.mem_cons_self (dateName env snapshot) ("../ids/" ++ snapshot.id.toHex)
      simp only [init, mount, ↓reduceIte]
      cases (sortByKey MountedSnapshot.timestamp snapshots).getLast? with
      | none => exact hweaken hlinks
      | some latest =>
        have hlatestId := hlinks.addSymlink (List.mem_cons_of_mem _ List.mem_cons_self) "latest"
          latest.id.toHex
        exact hweaken (hlatestId.addSymlink List.mem_cons_self "latest" (dateName env latest))

end MapacheFS

end Mapache
