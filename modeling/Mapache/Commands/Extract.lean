import Mathlib.Data.Fintype.EquivFin
import Mapache.Fs.Normalize

/-!
# Extracting a bundle

The walk of `extract_nodes_parallel` of `commands/cmd_bundle.rs` and what it creates. The names of
the trees are joined as they are. What is created stays below the destination, whatever this is,
exactly when the names on the way to it are relative and never climb (`created_inside_iff`).
-/

set_option autoImplicit false

namespace Mapache

open Lib

/-- What extraction needs to know: the trees of the bundle that can be loaded and parsed, and the
nodes that say where a symlink leads. -/
structure BundleTrees where
  load : ID → Option (List Node)
  hasSymlinkInfo : Node → Bool

namespace BundleTrees

variable (trees : BundleTrees)

/-! ## The walk -/

/-- What the walker sends for a tree. -/
def sent (dest : Path) (nodes : List Node) : List (Path × Node) :=
  nodes.map fun node => (joinName dest node.nameBytes, node)

/-- What the walker pushes for a tree, the last one on top. -/
def pushed (dest : Path) (nodes : List Node) : List (Path × ID) :=
  (nodes.filterMap fun node =>
    if node.isDir then node.tree.map fun id => (joinName dest node.nameBytes, id) else none).reverse

/-- The loop of `walk_task`: the nodes in the order in which they are sent. -/
def walk : Nat → List (Path × ID) → List (Path × Node)
  | fuel + 1, (dest, id) :: stack =>
    match trees.load id with
    | none => walk fuel stack
    | some nodes => sent dest nodes ++ walk fuel (pushed dest nodes ++ stack)
  | _, _ => []

/-- `create_dir_all`: a directory that does not exist is created after its parent. A path has as
many ancestors as components. -/
def createDirAll (isDir : Path → Bool) (path : Path) : List Path := go path.length path
where
  go : Nat → Path → List Path
    | 0, path => if isDir path then [] else [path]
    | n + 1, path => if isDir path then [] else go n path.dropLast ++ [path]

/-- Something is created for the node. -/
def creates (node : Node) : Bool :=
  node.isDir || (node.isFile && node.blobs.isSome) ||
    (decide (node.nodeType = .symlink) && trees.hasSymlinkInfo node)

/-- What is created for a node that was sent. Files are truncated if they exist. -/
def createdFor (isDir : Path → Bool) (item : Path × Node) : List Path :=
  if item.2.isDir then createDirAll isDir item.1
  else if trees.creates item.2 then [item.1] else []

/-- What an extraction creates. -/
def created (isDir : Path → Bool) (dest : Path) (root : ID) (fuel : Nat) : List Path :=
  (trees.walk fuel [(dest, root)]).flatMap (trees.createdFor isDir)

/-! ## The ways through the trees -/

/-- The names that lead from the root to a tree. -/
inductive Way (root : ID) : List Bytes → ID → Prop where
  | root : Way root [] root
  | sub {names : List Bytes} {t t' : ID} {nodes : List Node} {node : Node} : Way root names t →
      trees.load t = some nodes → node ∈ nodes → node.isDir = true → node.tree = some t' →
      Way root (names ++ [node.nameBytes]) t'

/-- The names are relative, and read one component after the other they never climb. -/
structure SafeNames (names : List Bytes) : Prop where
  relative : ∀ name ∈ names, name.head? ≠ some 0x2f
  stays : Stays 0 (names.flatMap nameParts)

/-- The names on the way to every node for which something is created are safe. -/
def Safe (root : ID) : Prop :=
  ∀ names t nodes node, trees.Way root names t → trees.load t = some nodes → node ∈ nodes →
    trees.creates node = true → SafeNames (names ++ [node.nameBytes])

variable {trees} {root t : ID} {dest : Path} {names : List Bytes} {nodes : List Node} {node : Node}

/-- The path of a way. -/
def pathOf (dest : Path) (names : List Bytes) : Path := names.foldl joinName dest

theorem pathOf_concat (dest : Path) (names : List Bytes) (name : Bytes) :
    pathOf dest (names ++ [name]) = joinName (pathOf dest names) name := by
  rw [pathOf, pathOf, List.foldl_append, List.foldl_cons, List.foldl_nil]

theorem pathOf_of_relative (h : ∀ name ∈ names, name.head? ≠ some 0x2f) :
    pathOf dest names = dest ++ (names.flatMap nameParts).map .normal := by
  induction names generalizing dest with
  | nil => simp [pathOf]
  | cons name names ih =>
    rw [List.forall_mem_cons] at h
    have hjoin : joinName dest name = dest ++ (nameParts name).map .normal := if_neg h.1
    rw [pathOf, List.foldl_cons, hjoin]
    refine (ih h.2).trans ?_
    rw [List.flatMap_cons, List.map_append, List.append_assoc]

/-- The components of a path are those of the destination and of the names. -/
theorem mem_pathOf {c : Component} (h : c ∈ pathOf dest names) :
    c ∈ dest ∨ c = .rootDir ∨ c ∈ (names.flatMap nameParts).map Component.normal := by
  induction names generalizing dest with
  | nil => exact Or.inl h
  | cons name names ih =>
    rw [List.flatMap_cons, List.map_append, List.mem_append]
    rcases ih h with hdest | hroot | hnames
    · rw [joinName] at hdest
      split at hdest
      · rcases List.mem_cons.mp hdest with hroot | hname
        · exact Or.inr (Or.inl hroot)
        · exact Or.inr (Or.inr (Or.inl hname))
      · rcases List.mem_append.mp hdest with hold | hname
        · exact Or.inl hold
        · exact Or.inr (Or.inr (Or.inl hname))
    · exact Or.inr (Or.inl hroot)
    · exact Or.inr (Or.inr (Or.inr hnames))

theorem pathOf_root (h : dest.head? = some .rootDir) : (pathOf dest names).head? = some .rootDir := by
  induction names generalizing dest with
  | nil => exact h
  | cons name names ih =>
    apply ih
    rw [joinName]
    split
    · rfl
    · cases dest with
      | nil => cases h
      | cons c dest => exact h

/-- After an absolute name the destination is not part of the path. -/
theorem not_mem_pathOf_of_absolute {c : Component} (h : ∃ name ∈ names, name.head? = some 0x2f)
    (hroot : c ≠ .rootDir) (hnames : c ∉ (names.flatMap nameParts).map Component.normal) :
    c ∉ pathOf dest names := by
  induction names generalizing dest with
  | nil =>
    obtain ⟨name, hmem, -⟩ := h
    cases hmem
  | cons name names ih =>
    rw [List.flatMap_cons, List.map_append, List.mem_append, not_or] at hnames
    by_cases habsolute : name.head? = some 0x2f
    · intro hmem
      have hjoin : joinName dest name = .rootDir :: (nameParts name).map .normal := if_pos habsolute
      rw [pathOf, List.foldl_cons, hjoin] at hmem
      rcases mem_pathOf hmem with hhere | heq | hlater
      · rcases List.mem_cons.mp hhere with heq | hname
        · exact hroot heq
        · exact hnames.1 hname
      · exact hroot heq
      · exact hnames.2 hlater
    · obtain ⟨name', hmem, habsolute'⟩ := h
      rcases List.mem_cons.mp hmem with rfl | hmem
      · exact absurd habsolute' habsolute
      · exact ih ⟨name', hmem, habsolute'⟩ hnames.2

/-! ## The walk follows the ways -/

/-- What is on the stack was reached by a way. -/
def Reached (trees : BundleTrees) (root : ID) (dest : Path) (entry : Path × ID) : Prop :=
  ∃ names, trees.Way root names entry.2 ∧ entry.1 = pathOf dest names

theorem reached_pushed {entry : Path × ID} (h : Reached trees root dest entry)
    (hload : trees.load entry.2 = some nodes) :
    ∀ e ∈ pushed entry.1 nodes, Reached trees root dest e := by
  obtain ⟨names, hway, hpath⟩ := h
  intro e he
  rw [pushed, List.mem_reverse, List.mem_filterMap] at he
  obtain ⟨node, hmem, heq⟩ := he
  split at heq
  · rename_i hdir
    obtain ⟨t', htree, rfl⟩ := Option.map_eq_some_iff.mp heq
    exact ⟨_, hway.sub hload hmem hdir htree, by rw [pathOf_concat, hpath]⟩
  · cases heq

/-- What is sent was reached by a way. -/
theorem of_mem_walk {fuel : Nat} {stack : List (Path × ID)} {item : Path × Node}
    (hstack : ∀ e ∈ stack, Reached trees root dest e) (h : item ∈ trees.walk fuel stack) :
    ∃ names t nodes, trees.Way root names t ∧ trees.load t = some nodes ∧ item.2 ∈ nodes ∧
      item.1 = pathOf dest (names ++ [item.2.nameBytes]) := by
  induction fuel generalizing stack with
  | zero => cases h
  | succ fuel ih =>
    cases stack with
    | nil => cases h
    | cons entry stack =>
      obtain ⟨path, t⟩ := entry
      rw [List.forall_mem_cons] at hstack
      rw [walk] at h
      split at h
      · exact ih hstack.2 h
      · rename_i nodes hload
        rcases List.mem_append.mp h with hsent | hrest
        · obtain ⟨names, hway, hpath⟩ := hstack.1
          obtain ⟨node, hmem, rfl⟩ := List.mem_map.mp hsent
          exact ⟨names, t, nodes, hway, hload, hmem, by rw [pathOf_concat, ← hpath]⟩
        · refine ih (fun e he => ?_) hrest
          rcases List.mem_append.mp he with hnew | hold
          · exact reached_pushed hstack.1 hload e hnew
          · exact hstack.2 e hold

/-! ## The walk ends -/

variable (trees) in
/-- Below the tree there are finitely many levels. -/
inductive Finite : ID → Prop where
  | mk {t : ID} : (∀ nodes node t', trees.load t = some nodes → node ∈ nodes → node.isDir = true →
      node.tree = some t' → Finite t') → Finite t

/-- A way to another tree starts with one of the directories. -/
theorem Way.head_cases {t t' : ID} (h : trees.Way t names t') : (names = [] ∧ t' = t) ∨
    ∃ nodes node t₁ rest, trees.load t = some nodes ∧ node ∈ nodes ∧ node.isDir = true ∧
      node.tree = some t₁ ∧ names = node.nameBytes :: rest ∧ trees.Way t₁ rest t' := by
  induction h with
  | root => exact Or.inl ⟨rfl, rfl⟩
  | sub hway hload hmem hdir htree ih =>
    rcases ih with ⟨rfl, rfl⟩ | ⟨nodes₁, node₁, t₁, rest, hload₁, hmem₁, hdir₁, htree₁, rfl, hrest⟩
    · exact Or.inr ⟨_, _, _, [], hload, hmem, hdir, htree, rfl, .root⟩
    · exact Or.inr ⟨nodes₁, node₁, t₁, _, hload₁, hmem₁, hdir₁, htree₁, rfl,
        hrest.sub hload hmem hdir htree⟩

/-- The walk sends these items for the entries, and goes on with the rest of the stack. -/
def WalksTo (trees : BundleTrees) (entries : List (Path × ID)) (items : List (Path × Node)) : Prop :=
  ∃ n, ∀ fuel stack, trees.walk (fuel + n) (entries ++ stack) = items ++ trees.walk fuel stack

/-- The items have every node below the tree, at its path. -/
def Covers (trees : BundleTrees) (items : List (Path × Node)) (entry : Path × ID) : Prop :=
  ∀ names t nodes node, trees.Way entry.2 names t → trees.load t = some nodes → node ∈ nodes →
    (pathOf entry.1 (names ++ [node.nameBytes]), node) ∈ items

theorem WalksTo.append {entries entries' : List (Path × ID)} {items items' : List (Path × Node)}
    (h : WalksTo trees entries items) (h' : WalksTo trees entries' items') :
    WalksTo trees (entries ++ entries') (items ++ items') := by
  obtain ⟨n, hn⟩ := h
  obtain ⟨n', hn'⟩ := h'
  refine ⟨n' + n, fun fuel stack => ?_⟩
  rw [List.append_assoc, List.append_assoc, ← Nat.add_assoc, hn, hn']

/-- **The walk of a finite tree ends**, and sends every node. -/
theorem Finite.walksTo (h : trees.Finite t) (path : Path) :
    ∃ items, WalksTo trees [(path, t)] items ∧ Covers trees items (path, t) := by
  induction h generalizing path with
  | mk hsub ih =>
    rename_i t
    cases hload : trees.load t with
    | none =>
      refine ⟨[], ⟨1, fun fuel stack => ?_⟩, fun names t' nodes node hway hload' hmem => ?_⟩
      · rw [List.singleton_append, walk, hload]
        rfl
      · rcases hway.head_cases with ⟨-, rfl⟩ | ⟨nodes₁, -, -, -, hload₁, -⟩
        · cases hload.symm.trans hload'
        · cases hload.symm.trans hload₁
    | some nodes =>
      -- The directories of the tree, one after the other.
      have hentries : ∀ entries : List (Path × ID), (∀ e ∈ entries, e ∈ pushed path nodes) →
          ∃ items, WalksTo trees entries items ∧ ∀ e ∈ entries, Covers trees items e := by
        intro entries
        induction entries with
        | nil => exact fun _ => ⟨[], ⟨0, fun _ _ => rfl⟩, nofun⟩
        | cons e entries ihEntries =>
          intro hmem
          rw [List.forall_mem_cons] at hmem
          obtain ⟨items, hwalks, hcovers⟩ := ihEntries hmem.2
          have he := hmem.1
          rw [pushed, List.mem_reverse, List.mem_filterMap] at he
          obtain ⟨node, hnode, heq⟩ := he
          split at heq
          · rename_i hdir
            obtain ⟨t', htree, rfl⟩ := Option.map_eq_some_iff.mp heq
            obtain ⟨items', hwalks', hcovers'⟩ :=
              ih nodes node t' hload hnode hdir htree (joinName path node.nameBytes)
            refine ⟨items' ++ items, hwalks'.append hwalks, ?_⟩
            rw [List.forall_mem_cons]
            refine ⟨fun names t₁ nodes₁ node₁ hway hload₁ hmem₁ => ?_,
              fun e he names t₁ nodes₁ node₁ hway hload₁ hmem₁ => ?_⟩
            · exact List.mem_append_left _ (hcovers' names t₁ nodes₁ node₁ hway hload₁ hmem₁)
            · exact List.mem_append_right _ (hcovers e he names t₁ nodes₁ node₁ hway hload₁
                hmem₁)
          · cases heq
      obtain ⟨items, ⟨n, hn⟩, hcovers⟩ := hentries (pushed path nodes) fun _ h => h
      refine ⟨sent path nodes ++ items, ⟨n + 1, fun fuel stack => ?_⟩, ?_⟩
      · rw [List.singleton_append, ← Nat.add_assoc, walk, hload]
        dsimp only
        rw [hn, List.append_assoc]
      · intro names t' nodes' node hway hload' hmem
        rcases hway.head_cases with
          ⟨rfl, rfl⟩ | ⟨nodes₁, node₁, t₁, rest, hload₁, hmem₁, hdir₁, htree₁, rfl, hrest⟩
        · cases hload.symm.trans hload'
          exact List.mem_append_left _ (List.mem_map.mpr ⟨node, hmem, rfl⟩)
        · cases hload.symm.trans hload₁
          have hpushed : (joinName path node₁.nameBytes, t₁) ∈ pushed path nodes := by
            rw [pushed, List.mem_reverse, List.mem_filterMap]
            exact ⟨node₁, hmem₁, by rw [if_pos hdir₁, htree₁]; rfl⟩
          exact List.mem_append_right _ (hcovers _ hpushed rest t' nodes' node hrest hload' hmem)

/-! ## What is created -/

/-- `create_dir_all` creates what is below a directory that there is. -/
theorem of_mem_createDirAll {isDir : Path → Bool} {base rest p : Path} (hbase : isDir base = true)
    {n : Nat} (h : p ∈ createDirAll.go isDir n (base ++ rest)) : ∃ k, p = base ++ rest.take k := by
  have hself : base ++ rest = base ++ rest.take rest.length := by rw [List.take_length]
  induction n generalizing rest with
  | zero =>
    rw [createDirAll.go] at h
    split at h
    · cases h
    · exact ⟨rest.length, by rw [List.mem_singleton.mp h, ← hself]⟩
  | succ n ih =>
    rw [createDirAll.go] at h
    split at h
    · cases h
    · rename_i hmissing
      rcases List.mem_append.mp h with hparent | hpath
      · rcases List.eq_nil_or_concat rest with rfl | ⟨rest, c, rfl⟩
        · rw [List.append_nil] at hmissing
          exact absurd hbase hmissing
        · rw [List.concat_eq_append] at hparent ⊢
          rw [← List.append_assoc, List.dropLast_concat] at hparent
          obtain ⟨k, rfl⟩ := ih hparent (by rw [List.take_length])
          refine ⟨min k rest.length, ?_⟩
          rw [List.take_append_of_le_length (Nat.min_le_right _ _), ← List.take_take,
            List.take_length]
      · exact ⟨rest.length, by rw [List.mem_singleton.mp hpath, ← hself]⟩

theorem mem_createDirAll_self {isDir : Path → Bool} {path : Path} (h : isDir path = false) :
    path ∈ createDirAll isDir path := by
  rw [createDirAll]
  cases path.length with
  | zero => simp [createDirAll.go, h]
  | succ n => simp [createDirAll.go, h]

theorem creates_of_mem_createdFor {isDir : Path → Bool} {path p : Path}
    (h : p ∈ trees.createdFor isDir (path, node)) : trees.creates node = true := by
  rw [createdFor] at h
  split at h
  · rename_i hdir
    simp [creates, show node.isDir = true from hdir]
  · split at h
    · rename_i hcreates
      exact hcreates
    · cases h

theorem of_mem_createdFor {isDir : Path → Bool} {rest p : Path} (hdest : isDir dest = true)
    (h : p ∈ trees.createdFor isDir (dest ++ rest, node)) : ∃ k, p = dest ++ rest.take k := by
  rw [createdFor] at h
  split at h
  · exact of_mem_createDirAll hdest h
  · split at h
    · refine ⟨rest.length, ?_⟩
      rw [List.take_length]
      exact List.mem_singleton.mp h
    · cases h

theorem mem_createdFor_self {isDir : Path → Bool} {path : Path} (h : isDir path = false)
    (hcreates : trees.creates node = true) : path ∈ trees.createdFor isDir (path, node) := by
  rw [createdFor]
  split
  · exact mem_createDirAll_self h
  · exact List.mem_singleton_self _

/-- There is a name that none of the given ones is. -/
theorem exists_fresh_name (parts : List Bytes) : ∃ name : Bytes, name ∉ parts ∧ name ≠ parentDir := by
  obtain ⟨name, hname⟩ := Infinite.exists_notMem_finset (parentDir :: parts).toFinset
  rw [List.mem_toFinset, List.mem_cons, not_or] at hname
  exact ⟨name, hname.2, hname.1⟩

/-- **Extraction stays inside the destination** exactly when the names on the way to every node for
which something is created are relative and never climb above it. -/
theorem created_inside_iff (hfinite : trees.Finite root) :
    (∀ currentDir dest isDir fuel, isDir dest = true →
      ∀ p ∈ trees.created isDir dest root fuel, Inside currentDir dest p) ↔ trees.Safe root := by
  constructor
  · intro h names t nodes node hway hload hmem hcreates
    obtain ⟨d, hfresh, hd⟩ := exists_fresh_name ((names ++ [node.nameBytes]).flatMap nameParts)
    obtain ⟨items, ⟨n, hn⟩, hcovers⟩ := hfinite.walksTo [.rootDir, .normal d]
    have hsent := hcovers names t nodes node hway hload hmem
    -- Only the destination is there, so that everything on the way is created.
    have hcreated : pathOf [.rootDir, .normal d] (names ++ [node.nameBytes]) ≠ [.rootDir, .normal d] →
        pathOf [.rootDir, .normal d] (names ++ [node.nameBytes]) ∈
          trees.created (fun p => decide (p = [.rootDir, .normal d])) [.rootDir,
            .normal d] root n := by
      intro hne
      have hwalk := hn 0 []
      rw [Nat.zero_add, List.append_nil] at hwalk
      rw [created, hwalk]
      refine List.mem_flatMap.mpr ⟨_, List.mem_append_left _ hsent, ?_⟩
      exact mem_createdFor_self (decide_eq_false hne) hcreates
    have hinside : Inside [] [.rootDir, .normal d]
        (pathOf [.rootDir, .normal d] (names ++ [node.nameBytes])) := by
      by_cases hne : pathOf [.rootDir, .normal d] (names ++ [node.nameBytes]) = [.rootDir, .normal d]
      · rw [hne, Inside]
      · exact h [] _ _ n (decide_eq_true rfl) _ (hcreated hne)
    have hnames : Component.normal d ∉
        ((names ++ [node.nameBytes]).flatMap nameParts).map Component.normal := by
      intro hmem'
      obtain ⟨part, hpart, heq⟩ := List.mem_map.mp hmem'
      cases heq
      exact hfresh hpart
    have hrelative : ∀ name ∈ names ++ [node.nameBytes], name.head? ≠ some 0x2f := by
      intro name hname habsolute
      have hne : Component.normal d ≠ .rootDir := Component.noConfusion
      exact not_inside_of_not_mem hd (pathOf_root rfl)
        (not_mem_pathOf_of_absolute ⟨name, hname, habsolute⟩ hne hnames) hinside
    refine ⟨hrelative, ?_⟩
    by_contra hclimbs
    rw [pathOf_of_relative hrelative] at hinside
    exact not_inside hd hfresh hclimbs hinside
  · intro hsafe currentDir dest isDir fuel hdest p hp
    obtain ⟨⟨path, node⟩, hitem, hp⟩ := List.mem_flatMap.mp hp
    have hstart : ∀ e ∈ [(dest, root)], Reached trees root dest e := by
      intro e he
      rw [List.mem_singleton.mp he]
      exact ⟨[], .root, rfl⟩
    obtain ⟨names, t, nodes, hway, hload, hmem, hpath⟩ := of_mem_walk hstart hitem
    obtain ⟨hrelative, hstays⟩ :=
      hsafe names t nodes node hway hload hmem (creates_of_mem_createdFor hp)
    rw [show path = _ from hpath, pathOf_of_relative hrelative] at hp
    obtain ⟨k, rfl⟩ := of_mem_createdFor hdest hp
    rw [← List.map_take]
    exact inside_of_stays (hstays.take k)

end BundleTrees

/-- A file whose name leads out of the directory it is in. -/
def climbingFile : Node := { name := "../x", blobs := some [] }

/-- A bundle with this file only. -/
def climbingTrees : BundleTrees where
  load := fun id => if id = 1 then some [climbingFile] else none
  hasSymlinkInfo := fun _ => false

theorem finite_climbingTrees : climbingTrees.Finite 1 := by
  refine .mk fun nodes node t' hload hmem hdir htree => ?_
  cases hload
  rw [List.mem_singleton.mp hmem] at htree
  cases htree

/-- What is created for it in `/d`. -/
def climbedPath : Path := [.rootDir, .normal [0x64], .normal parentDir, .normal [0x78]]

theorem climbedPath_created : climbedPath ∈
    climbingTrees.created (fun p => decide (p = [.rootDir, .normal [0x64]]))
      [.rootDir, .normal [0x64]] 1 1 := by
  decide +kernel

theorem climbedPath_not_inside : ¬ Inside [] [.rootDir, .normal [0x64]] climbedPath := by
  decide +kernel

/-- Extracted to `/d`, the file is created as `/x`. -/
theorem created_outside :
    (climbedPath ∈ climbingTrees.created (fun p => decide (p = [.rootDir, .normal [0x64]]))
      [.rootDir, .normal [0x64]] 1 1 ∧ ¬ Inside [] [.rootDir, .normal [0x64]] climbedPath) ∧
      normalizeComponents climbedPath = [.rootDir, .normal [0x78]] :=
  ⟨⟨climbedPath_created, climbedPath_not_inside⟩, by decide⟩

theorem created_inside_iff_climbing : ¬ climbingTrees.Safe 1 := by
  intro hsafe
  have h := (BundleTrees.created_inside_iff finite_climbingTrees).mpr hsafe
  exact climbedPath_not_inside (h [] _ _ 1 (decide_eq_true rfl) _ climbedPath_created)

end Mapache
