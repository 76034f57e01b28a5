import Mapache.Archiver.SerializerRun
import Mapache.Fs.Diff

/-!
# The tree serializer on a stored tree

The serializer when its items come from the walk over a stored tree, as they do when a snapshot is
rewritten: a directory comes right before everything below it, announced with the number of its
entries. Whatever the serializer expects in the directories below the root from the start is
replaced when their items come. What it expects in the root is not, since no item comes for the
root.

`Rewrites` says which tree the walk describes when `P` relates the node of a file to the one that
goes to the serializer. `Rewrites.fold` is the run of the serializer over the items of one
directory, by induction on the walk, and `Rewrites.serialize` the whole run: it depends on the
number of entries of the root and on the number that the serializer expects there.
-/

set_option autoImplicit false

namespace Mapache

open Lib

/-- The path of an entry of a directory. -/
def entryPath (base : Path) (node : Node) : Path := base ++ [.normal node.nameBytes]

/-- The entries of a directory that are not excluded. -/
def allowedEntries (filter : PathFilter) (base : Path) (nodes : List Node) : List Node :=
  nodes.filter fun node => filter.allow (entryPath base node)

/-- A directory with its new entries, in front of the entries that follow it. -/
def consDir (env : TreeEnv) (node : Node) (sub out : Option (List Node)) : Option (List Node) :=
  sub.bind fun sub' => (env.saveToStore sub').bind fun id =>
    out.map fun nodes' => { node with tree := some id } :: nodes'

/-- The entries of a directory, the items of the walk over them, the items that go to the serializer
and the new entries, unless the tree of a directory cannot be saved. -/
inductive Rewrites (load : ID → Except StreamError (List Node)) (filter : PathFilter) (env : TreeEnv)
    (P : Node → Node → Prop) : Path → List Node → List (Path × StreamNode) →
      List (Path × StreamNode) → Option (List Node) → Prop where
  | nil {base : Path} : Rewrites load filter env P base [] [] [] (some [])
  | skip {base : Path} {node : Node} {nodes : List Node} {raw items : List (Path × StreamNode)}
      {out : Option (List Node)} : filter.allow (entryPath base node) = false →
      Rewrites load filter env P base nodes raw items out →
      Rewrites load filter env P base (node :: nodes) raw items out
  | leaf {base : Path} {node node' : Node} {nodes : List Node} {raw items : List (Path × StreamNode)}
      {out : Option (List Node)} : filter.allow (entryPath base node) = true → node.tree = none →
      node'.isDir = false → node'.name = node.name → P node node' →
      Rewrites load filter env P base nodes raw items out →
      Rewrites load filter env P base (node :: nodes) ((entryPath base node, ⟨node, 0⟩) :: raw)
        ((entryPath base node, ⟨node', 0⟩) :: items) (out.map fun nodes' => node' :: nodes')
  | dir {base : Path} {node : Node} {id : ID} {nodes sub : List Node}
      {rawBelow raw below items : List (Path × StreamNode)} {subOut out : Option (List Node)} :
      filter.allow (entryPath base node) = true → node.isDir = true → node.tree = some id →
      load id = .ok sub → (sub.map Node.name).Nodup →
      Rewrites load filter env P (entryPath base node) sub rawBelow below subOut →
      Rewrites load filter env P base nodes raw items out →
      Rewrites load filter env P base (node :: nodes)
        ((entryPath base node, ⟨node, (allowedEntries filter (entryPath base node) sub).length⟩) ::
          (rawBelow ++ raw))
        ((entryPath base node, ⟨node, (allowedEntries filter (entryPath base node) sub).length⟩) ::
          (below ++ items)) (consDir env node subOut out)

section Lists

variable {load : ID → Except StreamError (List Node)} {filter : PathFilter} {env : TreeEnv}
  {P : Node → Node → Prop} {base : Path} {node : Node} {nodes nodes' : List Node}
  {raw items : List (Path × StreamNode)} {out sub : Option (List Node)}

theorem length_entryPath (base : Path) (node : Node) :
    (entryPath base node).length = base.length + 1 := by
  rw [entryPath, List.length_append, List.length_singleton]

theorem allowedEntries_cons_of_allow (h : filter.allow (entryPath base node) = true) :
    allowedEntries filter base (node :: nodes) = node :: allowedEntries filter base nodes :=
  List.filter_cons_of_pos h

theorem allowedEntries_cons_of_not (h : filter.allow (entryPath base node) = false) :
    allowedEntries filter base (node :: nodes) = allowedEntries filter base nodes :=
  List.filter_cons_of_neg (by rw [h]; exact Bool.false_ne_true)

/-- What a directory in front of others needs to be saved. -/
theorem consDir_eq_some (h : consDir env node sub out = some nodes') :
    ∃ sub' id rest, sub = some sub' ∧ env.saveToStore sub' = some id ∧ out = some rest ∧
      nodes' = { node with tree := some id } :: rest := by
  obtain ⟨sub', hsub, h⟩ := Option.bind_eq_some_iff.mp h
  obtain ⟨id, hid, h⟩ := Option.bind_eq_some_iff.mp h
  obtain ⟨rest, hrest, heq⟩ := Option.map_eq_some_iff.mp h
  exact ⟨sub', id, rest, hsub, hid, hrest, heq.symm⟩

/-- The new entries have the names of those that are not excluded. -/
theorem Rewrites.names (h : Rewrites load filter env P base nodes raw items (some nodes')) :
    nodes'.map Node.name = (allowedEntries filter base nodes).map Node.name := by
  generalize hout : some nodes' = out at h
  induction h generalizing nodes' with
  | nil =>
    cases hout
    rfl
  | skip hallow _ ih =>
    rw [allowedEntries_cons_of_not hallow]
    exact ih hout
  | leaf hallow _ _ hname _ _ ih =>
    obtain ⟨rest, rfl, rfl⟩ := Option.map_eq_some_iff.mp hout.symm
    rw [allowedEntries_cons_of_allow hallow, List.map_cons, List.map_cons, hname, ih rfl]
  | dir hallow _ _ _ _ _ _ _ ih =>
    obtain ⟨sub', id, rest, -, -, rfl, rfl⟩ := consDir_eq_some hout.symm
    rw [allowedEntries_cons_of_allow hallow, List.map_cons, List.map_cons, ih rfl]

theorem Rewrites.length_eq (h : Rewrites load filter env P base nodes raw items (some nodes')) :
    nodes'.length = (allowedEntries filter base nodes).length := by
  rw [← List.length_map (f := Node.name), h.names, List.length_map]

/-- Where every entry is excluded there is nothing to do. -/
theorem Rewrites.of_nil (h : Rewrites load filter env P base nodes raw items out)
    (hnil : allowedEntries filter base nodes = []) : items = [] ∧ out = some [] := by
  induction h with
  | nil => exact ⟨rfl, rfl⟩
  | skip hallow _ ih =>
    rw [allowedEntries_cons_of_not hallow] at hnil
    exact ih hnil
  | leaf hallow =>
    rw [allowedEntries_cons_of_allow hallow] at hnil
    cases hnil
  | dir hallow =>
    rw [allowedEntries_cons_of_allow hallow] at hnil
    cases hnil

/-- A walk over a directory is a walk over its first entries and one over the others. -/
theorem Rewrites.append {nodes₁ nodes₂ : List Node}
    (h : Rewrites load filter env P base (nodes₁ ++ nodes₂) raw items out) :
    ∃ raw₁ raw₂ items₁ items₂ out₁ out₂, items = items₁ ++ items₂ ∧
      Rewrites load filter env P base nodes₁ raw₁ items₁ out₁ ∧
      Rewrites load filter env P base nodes₂ raw₂ items₂ out₂ ∧
      out = out₁.bind fun a => out₂.map fun b => a ++ b := by
  induction nodes₁ generalizing raw items out with
  | nil =>
    refine ⟨[], raw, [], items, some [], out, rfl, .nil, h, ?_⟩
    rw [Option.bind_some]
    exact (Option.map_id' ..).symm
  | cons node nodes₁ ih =>
    cases h with
    | skip hallow hrest =>
      obtain ⟨raw₁, raw₂, items₁, items₂, out₁, out₂, rfl, h₁, h₂, rfl⟩ := ih hrest
      exact ⟨raw₁, raw₂, items₁, items₂, out₁, out₂, rfl, .skip hallow h₁, h₂, rfl⟩
    | leaf hallow htree hdir hname hP hrest =>
      obtain ⟨raw₁, raw₂, items₁, items₂, out₁, out₂, rfl, h₁, h₂, rfl⟩ := ih hrest
      refine ⟨_, raw₂, _, items₂, _, out₂, rfl, .leaf hallow htree hdir hname hP h₁, h₂, ?_⟩
      cases out₁ <;> cases out₂ <;> rfl
    | @dir _ _ _ _ _ _ _ _ _ subOut _ hallow hdir htree hload hnodup hsub hrest =>
      obtain ⟨raw₁, raw₂, items₁, items₂, out₁, out₂, rfl, h₁, h₂, rfl⟩ := ih hrest
      refine ⟨_, raw₂, _, items₂, _, out₂, ?_, .dir hallow hdir htree hload hnodup hsub h₁, h₂, ?_⟩
      · rw [List.cons_append, List.append_assoc]
      · cases subOut with
        | none => rfl
        | some sub' =>
          rw [consDir, consDir, Option.bind_some, Option.bind_some]
          cases env.saveToStore sub' with
          | none => rfl
          | some id => cases out₁ <;> cases out₂ <;> rfl

end Lists

/-! ## The directories of the serializer -/

/-- More children in a directory. -/
def PendingTree.add (tree : PendingTree) (nodes : List Node) : PendingTree :=
  { tree with children := tree.children ++ nodes }

/-- The directory still waits when all but the last of so many children have come. -/
def PendingTree.Room (tree : PendingTree) (count : Nat) : Prop :=
  count ≤ 1 ∨ match tree.numExpectedChildren with
    | .unknown => True
    | .known expected => tree.children.length + count ≤ expected

namespace TreeSerializer

/-- Nothing has come for what is below the directory. -/
def Clean (ts : TreeSerializer) (base : Path) : Prop :=
  ∀ path, StrictPrefix base path → (ts.entry path).children = []

/-- What has been done at and below a directory has left the others alone, and nothing is left over
below it. -/
structure Frame (base : Path) (ts ts' : TreeSerializer) : Prop where
  outside : ∀ path, ¬ base <+: path → ts'.entry path = ts.entry path
  clean : ts'.Clean base
  rootTreeId : ts'.rootTreeId = ts.rootTreeId
  snapshotRootPath : ts'.snapshotRootPath = ts.snapshotRootPath

variable {env : TreeEnv} {ts ts' ts'' : TreeSerializer} {base path : Path} {node : Node}
  {nodes : List Node} {count : Nat}

theorem Frame.refl (h : ts.Clean base) : Frame base ts ts := ⟨fun _ _ => rfl, h, rfl, rfl⟩

theorem Frame.trans (h : Frame base ts ts') (h' : Frame base ts' ts'') : Frame base ts ts'' :=
  ⟨fun path hpath => (h'.outside path hpath).trans (h.outside path hpath), h'.clean,
    h'.rootTreeId.trans h.rootTreeId, h'.snapshotRootPath.trans h.snapshotRootPath⟩

theorem entry_erase (ts : TreeSerializer) (path path' : Path) :
    entry { ts with pendingTrees := ts.pendingTrees.erase path } path' =
      if path' = path then ⟨.unknown, none, []⟩ else ts.entry path' := by
  unfold entry
  dsimp only
  rw [Table.lookup_erase_eq_ite]
  split <;> rfl

theorem entry_insertFinalizedNode (ts : TreeSerializer) (base path : Path) (node : Node) :
    (ts.insertFinalizedNode base node).entry path =
      if path = base then (ts.entry base).add [node] else ts.entry path :=
  entry_insert ts base path _

/-- Whether a directory is complete depends on its entry only. -/
theorem takeComplete_eq (ts : TreeSerializer) (path : Path) :
    ts.takeComplete path = if (ts.entry path).isPending then none
      else some ({ ts with pendingTrees := ts.pendingTrees.erase path }, ts.entry path) := by
  unfold takeComplete entry
  cases ts.pendingTrees.lookup path <;> rfl

theorem finalizeIfComplete_pending (h : (ts.entry path).isPending = true) (fuel : Nat) :
    finalizeIfComplete env (fuel + 1) ts path = some ts := by
  rw [finalizeIfComplete, takeComplete_eq, if_pos h]

/-- A child comes to its directory. -/
theorem Frame.insertFinalizedNode (h : Frame base ts ts') :
    Frame base ts (ts'.insertFinalizedNode base node) where
  outside path hpath := by
    rw [entry_insertFinalizedNode, if_neg (by rintro rfl; exact hpath (List.prefix_refl _))]
    exact h.outside path hpath
  clean path hpath := by
    rw [entry_insertFinalizedNode, if_neg hpath.2.symm]
    exact h.clean path hpath
  rootTreeId := h.rootTreeId
  snapshotRootPath := h.snapshotRootPath

/-- A complete directory below the root is saved, and its node comes to its parent. -/
theorem finalizeIfComplete_dir (hpath : entryPath base node ≠ ts.snapshotRootPath)
    (hentry : ts.entry (entryPath base node) = ⟨.known nodes.length, some node, nodes⟩)
    (hnodup : (nodes.map Node.name).Nodup) (fuel : Nat) :
    finalizeIfComplete env (fuel + 1) ts (entryPath base node) =
      (env.saveToStore nodes).bind fun id => finalizeIfComplete env fuel
        (({ ts with pendingTrees := ts.pendingTrees.erase (entryPath base node) } :
          TreeSerializer).insertFinalizedNode base { node with tree := some id }) base := by
  have hpending : ¬ (PendingTree.mk (.known nodes.length) (some node) nodes).isPending = true := by
    simp [PendingTree.isPending]
  have hvalid : (PendingTree.mk (.known nodes.length) (some node) nodes).isValid = true := by
    simp [PendingTree.isValid, SourceStream.hasAdjacentDuplicate_eq_false hnodup]
  rw [finalizeIfComplete, takeComplete_eq, hentry, if_neg hpending]
  dsimp only
  rw [if_pos hvalid]
  cases env.saveToStore nodes with
  | none => rfl
  | some id =>
    rw [Option.bind_some]
    dsimp only
    rw [resume, if_neg hpath, entryPath, extractParent_append]
    rfl

end TreeSerializer

theorem PendingTree.Room.isPending {tree : PendingTree} {count : Nat} {nodes : List Node}
    (h : tree.Room count) (hpos : 0 < nodes.length) (hlt : nodes.length < count) :
    (tree.add nodes).isPending = true := by
  rcases h with hle | h
  · omega
  · unfold PendingTree.isPending PendingTree.add
    dsimp only
    cases hnum : tree.numExpectedChildren with
    | unknown => rfl
    | known expected =>
      rw [hnum] at h
      dsimp only at h ⊢
      rw [decide_eq_true_iff, List.length_append]
      omega

theorem PendingTree.Room.add {tree : PendingTree} {count : Nat} {node : Node}
    (h : tree.Room (count + 1)) : (tree.add [node]).Room count := by
  rcases h with hle | h
  · exact Or.inl (by omega)
  · refine Or.inr ?_
    unfold PendingTree.add
    dsimp only
    cases hnum : tree.numExpectedChildren with
    | unknown => exact trivial
    | known expected =>
      rw [hnum] at h
      dsimp only at h ⊢
      rw [List.length_append, List.length_singleton]
      omega

/-! ## The run over the items of a directory -/

open TreeSerializer in
/-- What the serializer does with the items of a directory: an error when a tree cannot be saved,
and otherwise all new entries come to the directory, which is then looked at. -/
def Folds (env : TreeEnv) (root base : Path) (items : List (Path × StreamNode)) (count : Nat)
    (out : Option (List Node)) : Prop :=
  ∀ ts : TreeSerializer, ts.snapshotRootPath = root → ts.Clean base → (ts.entry base).Room count →
    (out = none → items.foldlM (handle env) ts = none) ∧
    ∀ nodes', out = some nodes' → nodes' ≠ [] →
      ∃ ts', items.foldlM (handle env) ts = finalizeIfComplete env (base.length + 1) ts' base ∧
        ts'.entry base = (ts.entry base).add nodes' ∧ Frame base ts ts'

section Fold

open TreeSerializer

variable {load : ID → Except StreamError (List Node)} {filter : PathFilter} {env : TreeEnv}
  {P : Node → Node → Prop} {root base : Path} {node : Node} {nodes : List Node}
  {raw items : List (Path × StreamNode)} {out : Option (List Node)} {ts ts' : TreeSerializer}

/-- After one new entry, the others. -/
theorem Folds.cons (hrest : Rewrites load filter env P base nodes raw items out)
    (h : Folds env root base items (allowedEntries filter base nodes).length out)
    (hroot : ts.snapshotRootPath = root)
    (hroom : (ts.entry base).Room ((allowedEntries filter base nodes).length + 1))
    (hframe : Frame base ts ts') (hentry : ts'.entry base = (ts.entry base).add [node]) :
    (out = none → ((finalizeIfComplete env (base.length + 1) ts' base).bind fun t =>
      items.foldlM (handle env) t) = none) ∧
    ∀ nodes', out = some nodes' → ∃ ts'',
      ((finalizeIfComplete env (base.length + 1) ts' base).bind fun t =>
        items.foldlM (handle env) t) = finalizeIfComplete env (base.length + 1) ts'' base ∧
      ts''.entry base = (ts.entry base).add (node :: nodes') ∧ Frame base ts ts'' := by
  by_cases hnil : allowedEntries filter base nodes = []
  · -- this was the last one
    obtain ⟨rfl, rfl⟩ := hrest.of_nil hnil
    refine ⟨nofun, ?_⟩
    rintro nodes' ⟨⟩
    exact ⟨ts', Option.bind_fun_some _, hentry, hframe⟩
  · have hpos := List.length_pos_iff.mpr hnil
    have hpending : (ts'.entry base).isPending = true := by
      rw [hentry]
      exact hroom.isPending (Nat.one_pos : 0 < [node].length) (by rw [List.length_singleton]; omega)
    rw [finalizeIfComplete_pending hpending, Option.bind_some]
    obtain ⟨hnone, hsome⟩ := h ts' (hframe.snapshotRootPath.trans hroot) hframe.clean (by
      rw [hentry]
      exact hroom.add)
    refine ⟨hnone, fun nodes' hout => ?_⟩
    have hne : nodes' ≠ [] := by
      rintro rfl
      subst hout
      have hlen := hrest.length_eq
      rw [List.length_nil] at hlen
      omega
    obtain ⟨ts'', hfold, hentry', hframe'⟩ := hsome nodes' hout hne
    refine ⟨ts'', hfold, ?_, hframe.trans hframe'⟩
    rw [hentry', hentry, PendingTree.add, PendingTree.add, PendingTree.add]
    simp only [List.append_assoc, List.singleton_append]

/-- The item of a directory replaces whatever the serializer expected there. -/
theorem handle_dir (env : TreeEnv) (hdir : node.isDir = true) (hclean : ts.Clean base) (count : Nat) :
    ∃ ts', handle env ts (entryPath base node, ⟨node, count⟩) =
        finalizeIfComplete env ((entryPath base node).length + 1) ts' (entryPath base node) ∧
      ts'.entry (entryPath base node) = ⟨.known count, some node, []⟩ ∧
      (∀ path, path ≠ entryPath base node → ts'.entry path = ts.entry path) ∧
      ts'.rootTreeId = ts.rootTreeId ∧ ts'.snapshotRootPath = ts.snapshotRootPath := by
  have hchildren := hclean (entryPath base node) (.append_singleton _ _)
  refine ⟨{ ts with
      pendingTrees := ts.pendingTrees.insert (entryPath base node)
        { ts.entry (entryPath base node) with
          node := some node
          numExpectedChildren := .known count } }, ?_, ?_, fun path hpath => ?_, rfl, rfl⟩
  · rw [handle, handleProcessedItem]
    dsimp only
    rw [if_pos hdir]
  · rw [entry_insert, if_pos rfl]
    dsimp only
    rw [hchildren]
  · rw [entry_insert, if_neg hpath]

/-- The item of a directory and what is below it: the directory is looked at when all of its entries
have come. -/
theorem Folds.below {sub : List Node} {rawBelow below : List (Path × StreamNode)}
    {subOut : Option (List Node)}
    (hsub : Rewrites load filter env P (entryPath base node) sub rawBelow below subOut)
    (h : Folds env root (entryPath base node) below
      (allowedEntries filter (entryPath base node) sub).length subOut)
    (hdir : node.isDir = true) (hnodup : (sub.map Node.name).Nodup) (hroot : ts.snapshotRootPath = root)
    (hclean : ts.Clean base) :
    (subOut = none → ((handle env ts (entryPath base node, ⟨node,
      (allowedEntries filter (entryPath base node) sub).length⟩)).bind fun t =>
        below.foldlM (handle env) t) = none) ∧
    ∀ sub', subOut = some sub' → ∃ ts',
      ((handle env ts (entryPath base node, ⟨node,
        (allowedEntries filter (entryPath base node) sub).length⟩)).bind fun t =>
          below.foldlM (handle env) t) =
        finalizeIfComplete env (base.length + 1 + 1) ts' (entryPath base node) ∧
      ts'.entry (entryPath base node) = ⟨.known sub'.length, some node, sub'⟩ ∧
      (sub'.map Node.name).Nodup ∧ Frame (entryPath base node) ts ts' := by
  obtain ⟨tsₐ, hhandle, hentry, hothers, hid, hpath⟩ := handle_dir env hdir hclean
    (allowedEntries filter (entryPath base node) sub).length
  have hcleanₐ : tsₐ.Clean (entryPath base node) := by
    intro path hbelow
    rw [hothers path hbelow.2.symm]
    exact hclean path ((StrictPrefix.append_singleton _ _).trans_le hbelow.1)
  have hframeₐ : Frame (entryPath base node) ts tsₐ := by
    refine ⟨fun path hnot => hothers path ?_, hcleanₐ, hid, hpath⟩
    rintro rfl
    exact hnot (List.prefix_refl _)
  have hroomₐ : (tsₐ.entry (entryPath base node)).Room
      (allowedEntries filter (entryPath base node) sub).length := by
    rw [hentry]
    exact Or.inr (by rw [List.length_nil, Nat.zero_add])
  obtain ⟨hnone, hsome⟩ := h tsₐ (hpath.trans hroot) hcleanₐ hroomₐ
  rw [hhandle]
  by_cases hnil : allowedEntries filter (entryPath base node) sub = []
  · -- an empty directory is looked at by its own item
    obtain ⟨rfl, rfl⟩ := hsub.of_nil hnil
    refine ⟨nofun, ?_⟩
    rintro sub' ⟨⟩
    refine ⟨tsₐ, ?_, ?_, List.nodup_nil, hframeₐ⟩
    · rw [length_entryPath]
      exact Option.bind_fun_some _
    · rw [hentry, hnil]
  · -- the item only announces the entries, and the last one below completes the directory
    have hpending : (tsₐ.entry (entryPath base node)).isPending = true := by
      rw [hentry]
      exact decide_eq_true (List.length_pos_iff.mpr hnil)
    rw [finalizeIfComplete_pending hpending, Option.bind_some]
    refine ⟨hnone, fun sub' hsub' => ?_⟩
    subst hsub'
    have hlen := hsub.length_eq
    have hne : sub' ≠ [] := by
      rintro rfl
      rw [List.length_nil] at hlen
      exact hnil (List.length_eq_zero_iff.mp hlen.symm)
    obtain ⟨ts', hfold, hentry', hframe⟩ := hsome sub' rfl hne
    refine ⟨ts', ?_, ?_, ?_, hframeₐ.trans hframe⟩
    · rw [hfold, length_entryPath]
    · rw [hentry', hentry, hlen]
      rfl
    · rw [hsub.names]
      exact hnodup.sublist (List.filter_sublist.map _)

/-- A directory that is taken out leaves nothing behind below its parent. -/
theorem TreeSerializer.Frame.erase (h : Frame (entryPath base node) ts ts') (hclean : ts.Clean base) :
    Frame base ts { ts' with pendingTrees := ts'.pendingTrees.erase (entryPath base node) } := by
  refine ⟨fun path hpath => ?_, fun path hpath => ?_, h.rootTreeId, h.snapshotRootPath⟩
  · have hnot : ¬ entryPath base node <+: path := fun hle =>
      hpath ((List.prefix_append _ _).trans hle)
    rw [entry_erase, if_neg (by rintro rfl; exact hnot (List.prefix_refl _)), h.outside path hnot]
  · rw [entry_erase]
    split
    · rfl
    · rename_i hne
      by_cases hle : entryPath base node <+: path
      · exact h.clean path ⟨hle, Ne.symm hne⟩
      · rw [h.outside path hle]
        exact hclean path hpath

/-- The node of a directory that is saved comes to its parent. -/
theorem finalizeIfComplete_saved {sub : List Node} {subId : ID} (hle : root <+: base)
    (hroot : ts.snapshotRootPath = root) (hclean : ts.Clean base)
    (hframe : Frame (entryPath base node) ts ts')
    (hentry : ts'.entry (entryPath base node) = ⟨.known sub.length, some node, sub⟩)
    (hnames : (sub.map Node.name).Nodup) (hsave : env.saveToStore sub = some subId) :
    ∃ ts₁, finalizeIfComplete env (base.length + 1 + 1) ts' (entryPath base node) =
        finalizeIfComplete env (base.length + 1) ts₁ base ∧
      Frame base ts ts₁ ∧
      ts₁.entry base = (ts.entry base).add [{ node with tree := some subId }] := by
  have hlt : StrictPrefix base (entryPath base node) := .append_singleton _ _
  have hpath : entryPath base node ≠ ts'.snapshotRootPath := by
    rw [hframe.snapshotRootPath, hroot]
    exact (StrictPrefix.prefix_trans hle hlt).2.symm
  refine ⟨({ ts' with pendingTrees := ts'.pendingTrees.erase (entryPath base node) } :
    TreeSerializer).insertFinalizedNode base { node with tree := some subId }, ?_,
    (hframe.erase hclean).insertFinalizedNode, ?_⟩
  · rw [finalizeIfComplete_dir hpath hentry hnames, hsave, Option.bind_some]
  · rw [entry_insertFinalizedNode, if_pos rfl, entry_erase, if_neg hlt.2,
      hframe.outside base hlt.not_le_self]

/-- A file in front of other entries. -/
theorem Folds.leaf {node' : Node} (hallow : filter.allow (entryPath base node) = true)
    (hdir : node'.isDir = false) (hrest : Rewrites load filter env P base nodes raw items out)
    (h : Folds env root base items (allowedEntries filter base nodes).length out) :
    Folds env root base ((entryPath base node, ⟨node', 0⟩) :: items)
      (allowedEntries filter base (node :: nodes)).length (out.map (node' :: ·)) := by
  intro ts hroot hclean hroom
  rw [allowedEntries_cons_of_allow hallow, List.length_cons] at hroom
  have hhandle : handle env ts (entryPath base node, ⟨node', 0⟩) =
      finalizeIfComplete env (base.length + 1) (ts.insertFinalizedNode base node') base := by
    rw [handle, handleProcessedItem]
    dsimp only
    rw [if_neg (by rw [hdir]; exact Bool.false_ne_true), entryPath, extractParent_append]
    rfl
  obtain ⟨hnone, hsome⟩ := h.cons hrest hroot hroom (Frame.refl hclean).insertFinalizedNode
    (by rw [entry_insertFinalizedNode, if_pos rfl] : _ = (ts.entry base).add [node'])
  rw [List.foldlM_cons, hhandle, Option.bind_eq_bind]
  refine ⟨fun hout => hnone (Option.map_eq_none_iff.mp hout), fun nodes' hout _ => ?_⟩
  obtain ⟨rest, hrest', rfl⟩ := Option.map_eq_some_iff.mp hout
  exact hsome rest hrest'

/-- A directory, with what is below it, in front of other entries. -/
theorem Folds.dir {sub : List Node} {rawBelow below : List (Path × StreamNode)}
    {subOut : Option (List Node)} (hle : root <+: base)
    (hallow : filter.allow (entryPath base node) = true) (hdir : node.isDir = true)
    (hnodup : (sub.map Node.name).Nodup)
    (hsub : Rewrites load filter env P (entryPath base node) sub rawBelow below subOut)
    (hrest : Rewrites load filter env P base nodes raw items out)
    (hbelow : Folds env root (entryPath base node) below
      (allowedEntries filter (entryPath base node) sub).length subOut)
    (h : Folds env root base items (allowedEntries filter base nodes).length out) :
    Folds env root base
      ((entryPath base node, ⟨node, (allowedEntries filter (entryPath base node) sub).length⟩) ::
        (below ++ items))
      (allowedEntries filter base (node :: nodes)).length (consDir env node subOut out) := by
  intro ts hroot hclean hroom
  rw [allowedEntries_cons_of_allow hallow, List.length_cons] at hroom
  obtain ⟨hnone, hsome⟩ := Folds.below hsub hbelow hdir hnodup hroot hclean
  have hassoc : (((entryPath base node, ⟨node,
        (allowedEntries filter (entryPath base node) sub).length⟩) ::
          (below ++ items)).foldlM (handle env) ts) =
      ((handle env ts (entryPath base node, ⟨node,
        (allowedEntries filter (entryPath base node) sub).length⟩)).bind fun t =>
          below.foldlM (handle env) t).bind fun t => items.foldlM (handle env) t := by
    rw [List.foldlM_cons]
    simp only [List.foldlM_append, Option.bind_eq_bind, Option.bind_assoc]
  -- first the directory with all that is below it, then the rest of the level
  rw [hassoc]
  refine ⟨fun hout => ?_, fun nodes' hout _ => ?_⟩
  · cases hsubOut : subOut with
    | none => rw [hnone hsubOut, Option.bind_none]
    | some sub' =>
      obtain ⟨ts', hfold, hentry, hnames, hframe⟩ := hsome sub' hsubOut
      rw [hfold]
      cases hsave : env.saveToStore sub' with
      | none =>
        have hpath : entryPath base node ≠ ts'.snapshotRootPath := by
          rw [hframe.snapshotRootPath, hroot]
          exact (StrictPrefix.prefix_trans hle (.append_singleton _ _)).2.symm
        rw [finalizeIfComplete_dir hpath hentry hnames, hsave, Option.bind_none, Option.bind_none]
      | some subId =>
        obtain ⟨ts₁, hfold₁, hframe₁, hentry₁⟩ :=
          finalizeIfComplete_saved hle hroot hclean hframe hentry hnames hsave
        rw [hsubOut, consDir, Option.bind_some, hsave, Option.bind_some,
          Option.map_eq_none_iff] at hout
        rw [hfold₁]
        exact (h.cons hrest hroot hroom hframe₁ hentry₁).1 hout
  · obtain ⟨sub', subId, rest, hsubOut, hsave, hrest', rfl⟩ := consDir_eq_some hout
    obtain ⟨ts', hfold, hentry, hnames, hframe⟩ := hsome sub' hsubOut
    obtain ⟨ts₁, hfold₁, hframe₁, hentry₁⟩ :=
      finalizeIfComplete_saved hle hroot hclean hframe hentry hnames hsave
    rw [hfold, hfold₁]
    exact (h.cons hrest hroot hroom hframe₁ hentry₁).2 rest hrest'

/-- **The run over the items of a directory.** -/
theorem Rewrites.fold (h : Rewrites load filter env P base nodes raw items out) (hle : root <+: base) :
    Folds env root base items (allowedEntries filter base nodes).length out := by
  induction h with
  | nil => exact fun ts _ _ _ => ⟨nofun, by rintro nodes' ⟨⟩ hne; exact absurd rfl hne⟩
  | skip hallow _ ih =>
    rw [allowedEntries_cons_of_not hallow]
    exact ih hle
  | leaf hallow _ hdir _ _ hrest ih => exact .leaf hallow hdir hrest (ih hle)
  | dir hallow hdir _ _ hnodup hsub hrest ihsub ih =>
    have hbelow := ihsub (hle.trans (StrictPrefix.append_singleton _ _).1)
    exact .dir hle hallow hdir hnodup hsub hrest hbelow (ih hle)

/-! ## The whole run -/

/-- The serializer at the start. -/
theorem entry_new_root (root : Path) (counts : Nat × List (Path × Nat)) :
    (TreeSerializer.new root counts).entry root = ⟨.known counts.1, none, []⟩ := by
  rw [entry, TreeSerializer.new, lookup_initPendingTrees_root]
  rfl

theorem clean_new (root : Path) (counts : Nat × List (Path × Nat)) :
    (TreeSerializer.new root counts).Clean root := by
  intro path hpath
  rw [entry, TreeSerializer.new]
  dsimp only
  rw [initPendingTrees, lookup_foldl_insert, AList.lookup_insert_ne hpath.2.symm, AList.lookup_empty,
    Option.none_or]
  cases counts.2.find? fun c => c.1 = path <;> rfl

/-- The root is saved when it is complete. -/
theorem finalizeIfComplete_root (env : TreeEnv) {ts : TreeSerializer} {own : Option Node}
    (hentry : ts.entry ts.snapshotRootPath = ⟨.known nodes.length, own, nodes⟩)
    (hnodup : (nodes.map Node.name).Nodup) (fuel : Nat) :
    finalizeIfComplete env (fuel + 1) ts ts.snapshotRootPath = (env.saveToStore nodes).map fun id =>
      { ts with
        pendingTrees := ts.pendingTrees.erase ts.snapshotRootPath
        rootTreeId := some id } := by
  have hpending : ¬ (PendingTree.mk (.known nodes.length) own nodes).isPending = true := by
    simp [PendingTree.isPending]
  have hvalid : (PendingTree.mk (.known nodes.length) own nodes).isValid = true := by
    simp [PendingTree.isValid, SourceStream.hasAdjacentDuplicate_eq_false hnodup]
  rw [finalizeIfComplete, takeComplete_eq, hentry, if_neg hpending]
  dsimp only
  rw [if_pos hvalid]
  cases env.saveToStore nodes with
  | none => rfl
  | some id =>
    dsimp only
    rw [resume, if_pos rfl]
    rfl

/-- The first entries of a directory, as many as are not excluded, and the others. -/
theorem exists_split_allowed (filter : PathFilter) (base : Path) {nodes : List Node} {count : Nat}
    (h : count ≤ (allowedEntries filter base nodes).length) :
    ∃ nodes₁ nodes₂, nodes = nodes₁ ++ nodes₂ ∧ (allowedEntries filter base nodes₁).length =
      count := by
  induction nodes generalizing count with
  | nil => exact ⟨[], [], rfl, (Nat.le_zero.mp h).symm⟩
  | cons node nodes ih =>
    cases hallow : filter.allow (entryPath base node) with
    | false =>
      rw [allowedEntries_cons_of_not hallow] at h
      obtain ⟨nodes₁, nodes₂, rfl, hcount⟩ := ih h
      exact ⟨node :: nodes₁, nodes₂, rfl, by rw [allowedEntries_cons_of_not hallow, hcount]⟩
    | true =>
      cases count with
      | zero => exact ⟨[], node :: nodes, rfl, rfl⟩
      | succ count =>
        rw [allowedEntries_cons_of_allow hallow, List.length_cons] at h
        obtain ⟨nodes₁, nodes₂, rfl, hcount⟩ := ih (Nat.le_of_succ_le_succ h)
        exact ⟨node :: nodes₁, nodes₂, rfl, by
          rw [allowedEntries_cons_of_allow hallow, List.length_cons, hcount]⟩

theorem allowedEntries_append {nodes₁ nodes₂ : List Node} :
    allowedEntries filter base (nodes₁ ++ nodes₂) =
      allowedEntries filter base nodes₁ ++ allowedEntries filter base nodes₂ :=
  List.filter_append _ _

/-- What a run leaves of the root level: nothing where it has fewer entries than the serializer
expects, an error where none is expected and one comes, and otherwise the first ones, as many as are
expected. -/
def rootResult (env : TreeEnv) (expected count : Nat) (out : Option (List Node)) :
    Option (Option ID) :=
  if count < expected then out.map fun _ => none
  else if expected = 0 ∧ 0 < count then none
  else out.bind fun nodes' => (env.saveToStore (nodes'.take expected)).map some

/-- Fewer entries than the root waits for: it is never saved. -/
theorem Rewrites.serialize_lt (h : Rewrites load filter env P root nodes raw items out)
    {counts : Nat × List (Path × Nat)} (hlt : (allowedEntries filter root nodes).length < counts.1) :
    serialize env (.new root counts) items = out.map fun _ => none := by
  have hentry := entry_new_root root counts
  obtain ⟨hnone, hsome⟩ := h.fold (List.prefix_refl root) (.new root counts) rfl
    (clean_new root counts) (by rw [hentry]; exact Or.inr (by rw [List.length_nil]; omega))
  cases hout : out with
  | none =>
    rw [serialize, hnone hout]
    rfl
  | some nodes' =>
    subst hout
    have hlen := h.length_eq
    by_cases hne : nodes' = []
    · -- nothing has come at all
      subst hne
      obtain ⟨rfl, -⟩ := h.of_nil (List.length_eq_zero_iff.mp hlen.symm)
      have hroot : ((TreeSerializer.new root counts).entry root).isPending = true := by
        rw [hentry]
        exact decide_eq_true (Nat.zero_lt_of_lt hlt)
      rw [serialize, List.foldlM_nil]
      exact congrArg (Option.map rootTreeId) (finalizeIfComplete_pending hroot _)
    · obtain ⟨ts', hfold, hentry', hframe⟩ := hsome nodes' rfl hne
      have hroot : (ts'.entry root).isPending = true := by
        rw [hentry', hentry]
        exact decide_eq_true (show nodes'.length < counts.1 by omega)
      have hpath : ts'.snapshotRootPath = root := hframe.snapshotRootPath
      rw [serialize, hfold, finalizeIfComplete_pending hroot]
      dsimp only
      rw [hpath, finalizeIfComplete_pending hroot, Option.map_some, hframe.rootTreeId]
      rfl

/-- An entry where the root waits for none is an error. -/
theorem Rewrites.serialize_zero (h : Rewrites load filter env P root nodes raw items out)
    {counts : Nat × List (Path × Nat)} (hzero : counts.1 = 0)
    (hpos : 0 < (allowedEntries filter root nodes).length) :
    serialize env (.new root counts) items = none := by
  obtain ⟨nodes₁, nodes₂, rfl, hone⟩ := exists_split_allowed filter root hpos
  obtain ⟨raw₁, raw₂, items₁, items₂, out₁, out₂, rfl, h₁, -, -⟩ := h.append
  have hentry := entry_new_root root counts
  obtain ⟨hnone, hsome⟩ := h₁.fold (List.prefix_refl root) (.new root counts) rfl
    (clean_new root counts) (Or.inl hone.le)
  have hfold : items₁.foldlM (handle env) (.new root counts) = none := by
    cases hout : out₁ with
    | none => exact hnone hout
    | some nodes' =>
      subst hout
      have hlen := h₁.length_eq
      obtain ⟨ts', hfold, hentry', -⟩ := hsome nodes' rfl (by
        rintro rfl
        rw [hone] at hlen
        cases hlen)
      rw [hone] at hlen
      have hpending : ¬ (ts'.entry root).isPending = true := by
        rw [hentry', hentry, hzero]
        simp [PendingTree.isPending, PendingTree.add]
      have hvalid : ¬ (ts'.entry root).isValid = true := by
        rw [hentry', hentry, hzero]
        simp [PendingTree.isValid, PendingTree.add, hlen]
      rw [hfold, finalizeIfComplete, takeComplete_eq, if_neg hpending]
      dsimp only
      rw [if_neg hvalid]
  rw [serialize, List.foldlM_append, hfold]
  rfl

/-- The root is saved with the first entries, as many as it waits for. -/
theorem Rewrites.serialize_le (h : Rewrites load filter env P root nodes raw items out)
    (hnodup : (nodes.map Node.name).Nodup) {counts : Nat × List (Path × Nat)}
    (hpos : 0 < counts.1 ∨ allowedEntries filter root nodes = [])
    (hle : counts.1 ≤ (allowedEntries filter root nodes).length) :
    serialize env (.new root counts) items =
      out.bind fun nodes' => (env.saveToStore (nodes'.take counts.1)).map some := by
  have hentry := entry_new_root root counts
  by_cases hnil : allowedEntries filter root nodes = []
  · -- the root waits for nothing
    obtain ⟨rfl, rfl⟩ := h.of_nil hnil
    rw [hnil, List.length_nil, Nat.le_zero] at hle
    have hroot : (TreeSerializer.new root counts).entry
        (TreeSerializer.new root counts).snapshotRootPath =
        ⟨.known ([] : List Node).length, none, []⟩ := by
      rw [List.length_nil, ← hle]
      exact hentry
    rw [serialize, List.foldlM_nil]
    dsimp only [Option.pure_def]
    rw [finalizeIfComplete_root env hroot List.nodup_nil, Option.bind_some, List.take_nil,
      Option.map_map]
    rfl
  · have hcount : 0 < counts.1 := hpos.resolve_right hnil
    obtain ⟨nodes₁, nodes₂, rfl, hlen₁⟩ := exists_split_allowed filter root hle
    obtain ⟨raw₁, raw₂, items₁, items₂, out₁, out₂, rfl, h₁, h₂, rfl⟩ := h.append
    obtain ⟨hnone₁, hsome₁⟩ := h₁.fold (List.prefix_refl root) (.new root counts) rfl
      (clean_new root counts)
      (by rw [hentry]; exact Or.inr (by rw [List.length_nil]; omega))
    rw [serialize, List.foldlM_append]
    cases hout₁ : out₁ with
    | none =>
      rw [hnone₁ hout₁]
      rfl
    | some nodes₁' =>
      subst hout₁
      have hlen := h₁.length_eq.trans hlen₁
      obtain ⟨ts₁, hfold₁, hentry₁, hframe₁⟩ := hsome₁ nodes₁' rfl (by
        rintro rfl
        rw [List.length_nil] at hlen
        omega)
      have hpath₁ : ts₁.snapshotRootPath = root := hframe₁.snapshotRootPath
      have hnodup₁ : (nodes₁'.map Node.name).Nodup := by
        rw [h₁.names]
        rw [List.map_append] at hnodup
        exact hnodup.of_append_left.sublist (List.filter_sublist.map _)
      have hroot₁ : ts₁.entry ts₁.snapshotRootPath = ⟨.known nodes₁'.length, none, nodes₁'⟩ := by
        rw [hpath₁, hentry₁, hentry, hlen]
        rfl
      have hsaved := finalizeIfComplete_root env hroot₁ hnodup₁ root.length
      rw [hpath₁] at hsaved
      rw [hfold₁, hsaved, Option.bind_some]
      have htake : ∀ nodes₂' : List Node, (nodes₁' ++ nodes₂').take counts.1 = nodes₁' :=
        fun nodes₂' => List.take_left' hlen
      cases hsave : env.saveToStore nodes₁' with
      | none =>
        cases out₂ with
        | none => rfl
        | some nodes₂' =>
          rw [Option.map_some, Option.bind_some, htake, hsave]
          rfl
      | some id =>
        -- what comes now goes to a root that is never complete
        obtain ⟨ts₂, hts₂⟩ : ∃ ts₂ : TreeSerializer,
            ts₂ = ⟨ts₁.pendingTrees.erase root, root, some id⟩ := ⟨_, rfl⟩
        have hentry₂ : ∀ path, ts₂.entry path = if path = root then ⟨.unknown, none, []⟩
            else ts₁.entry path := fun path => by
          rw [hts₂]
          exact entry_erase ts₁ root path
        have hpath₂ : ts₂.snapshotRootPath = root := by rw [hts₂]
        have hid₂ : ts₂.rootTreeId = some id := by rw [hts₂]
        have hclean₂ : ts₂.Clean root := fun path hpath => by
          rw [hentry₂, if_neg hpath.2.symm]
          exact hframe₁.clean path hpath
        have hroot₂ : ts₂.entry root = ⟨.unknown, none, []⟩ := by rw [hentry₂, if_pos rfl]
        have hend : ∀ ts : TreeSerializer, (ts.entry root).isPending = true →
            ts.snapshotRootPath = root → ts.rootTreeId = some id →
            (finalizeIfComplete env (ts.snapshotRootPath.length + 1) ts
              ts.snapshotRootPath).map rootTreeId = some (some id) := by
          intro ts hpending hpath hid
          rw [hpath, finalizeIfComplete_pending hpending, Option.map_some, hid]
        rw [Option.map_some, Option.bind_eq_bind, Option.bind_some, ← hts₂]
        obtain ⟨hnone₂, hsome₂⟩ := h₂.fold (List.prefix_refl root) ts₂ hpath₂ hclean₂
          (by rw [hroot₂]; exact Or.inr trivial)
        cases hout₂ : out₂ with
        | none =>
          rw [hnone₂ hout₂]
          rfl
        | some nodes₂' =>
          subst hout₂
          rw [Option.map_some, Option.bind_some, htake, hsave, Option.map_some]
          by_cases hne : nodes₂' = []
          · have hnil₂ : allowedEntries filter root nodes₂ = [] := by
              have hlen₂ := h₂.length_eq
              rw [hne, List.length_nil] at hlen₂
              exact List.length_eq_zero_iff.mp hlen₂.symm
            obtain ⟨rfl, -⟩ := h₂.of_nil hnil₂
            exact hend ts₂ (by rw [hroot₂]; rfl) hpath₂ hid₂
          · obtain ⟨ts₃, hfold₃, hentry₃, hframe₃⟩ := hsome₂ nodes₂' rfl hne
            have hpending₃ : (ts₃.entry root).isPending = true := by
              rw [hentry₃, hroot₂]
              rfl
            rw [hfold₃, finalizeIfComplete_pending hpending₃]
            exact hend ts₃ hpending₃ (hframe₃.snapshotRootPath.trans hpath₂)
              (hframe₃.rootTreeId.trans hid₂)

/-- **The whole run** of the serializer over the walk. -/
theorem Rewrites.serialize (h : Rewrites load filter env P root nodes raw items out)
    (hnodup : (nodes.map Node.name).Nodup) (counts : Nat × List (Path × Nat)) :
    TreeSerializer.serialize env (.new root counts) items =
      rootResult env counts.1 (allowedEntries filter root nodes).length out := by
  unfold rootResult
  split
  · exact h.serialize_lt ‹_›
  · rename_i hle
    split
    · rename_i hzero
      exact h.serialize_zero hzero.1 hzero.2
    · rename_i hzero
      refine h.serialize_le hnodup ?_ (Nat.le_of_not_lt hle)
      rw [← List.length_eq_zero_iff]
      omega

end Fold

end Mapache
