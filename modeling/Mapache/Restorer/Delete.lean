import Mapache.Fs.Counts
import Mapache.Fs.Names
import Mapache.Lib.Prefix
import Mapache.Lib.Table
import Mapache.Utils.SecureJoin

/-!
# Deleting what a snapshot does not have

`delete_nodes`, the second part of `restore --delete`: `SerializedTreeStream` walks the trees of the
snapshot, and in the local directory of each tree the entries that the tree does not name are
deleted. The directory is looked for at the path of the tree below the target, while the restore
before it has taken the strip prefix away from the paths. So a restored file can be deleted when it
lies below the directory of a tree that has no such name (`restored_file_is_deleted`), and only then
(`deleteNodes_keeps_restored_iff`). Symbolic links on the way are followed, so such a directory may
also be reached through a link in the target.
-/

set_option autoImplicit false

namespace Mapache

open Lib

/-! ## The local files -/

/-- What is at a local path. A symbolic link has the place that it leads to. -/
inductive LocalKind where
  | dir
  | file
  | link (dest : Path)
  deriving DecidableEq

/-- The local files and directories. -/
abbrev LocalTree := Table Path LocalKind

/-- What `Path::read_dir` finds: a directory at its place, nothing, or something else. -/
inductive ReadDir where
  | dir (place : Path)
  | notFound
  | failed
  deriving DecidableEq

namespace LocalTree

/-- What is above an entry is a directory. -/
def WF (disk : LocalTree) : Prop :=
  ∀ path kind, disk.lookup path = some kind → ∀ above, above ≠ [] → StrictPrefix above path →
    disk.lookup above = some .dir

/-- One more component of a path, with links followed. -/
def enter (disk : LocalTree) : ReadDir → Component → ReadDir
  | .dir place, c =>
    match disk.lookup (place ++ [c]) with
    | none => .notFound
    | some .dir => .dir (place ++ [c])
    | some .file => .failed
    | some (.link dest) =>
      match disk.lookup dest with
      | some .dir => .dir dest
      | some _ => .failed
      | none => .notFound
  | other, _ => other

/-- `Path::read_dir` of a path below the target. -/
def readDir (disk : LocalTree) (target path : Path) : ReadDir :=
  path.foldl disk.enter (.dir target)

/-- The place of the entry at a path below the target, with links above it followed. -/
def entryAt (disk : LocalTree) (target path : Path) : Option Path :=
  match disk.readDir target path.dropLast, path.getLast? with
  | .dir place, some c => if (disk.lookup (place ++ [c])).isSome then some (place ++ [c]) else none
  | _, _ => none

/-- The names in a directory. -/
def names (disk : LocalTree) (place : Path) : List Bytes :=
  (disk.keys.filter fun path => path.dropLast = place).filterMap fileName

/-- There is no link on the way to the path. -/
def NoLinks (disk : LocalTree) (target path : Path) : Prop :=
  ∀ way, way ≠ [] → way <+: path → ∀ dest, disk.lookup (target ++ way) ≠ some (.link dest)

/-- `remove_dir_all` and `remove_file`: a link is removed itself. -/
def remove (disk : LocalTree) (path : Path) : LocalTree :=
  (disk.keys.filter fun p => path <+: p).foldl (fun disk p => disk.erase p) disk

end LocalTree

/-! ## The deletion -/

/-- `SyncOpts`, with the include paths of the filter. -/
structure SyncOpts where
  includes : Option (List Path)
  dryRun : Bool
  noPreserveRoot : Bool

/-- `SerializedTreeStream`: the trees that are yielded from a stack, with its top first. An error
ends the stream. -/
inductive TreeWalk (load : ID → Except StreamError (List Node)) (filter : PathFilter) :
    List (Path × ID) → List (Path × List Node) → Prop where
  | nil : TreeWalk load filter [] []
  | skip {path : Path} {id : ID} {stack : List (Path × ID)} {out : List (Path × List Node)} :
      filter.allow path = false → TreeWalk load filter stack out →
      TreeWalk load filter ((path, id) :: stack) out
  | error {path : Path} {id : ID} {stack : List (Path × ID)} {e : StreamError} :
      filter.allow path = true → load id = .error e → TreeWalk load filter ((path, id) :: stack) []
  | visit {path : Path} {id : ID} {stack : List (Path × ID)} {nodes : List Node}
      {out : List (Path × List Node)} : filter.allow path = true → load id = .ok nodes →
      TreeWalk load filter
        ((nodes.filterMap fun node => node.tree.bind fun sub =>
          if filter.allow (joinName path node.nameBytes) then
            some (joinName path node.nameBytes, sub)
          else none) ++ stack) out →
      TreeWalk load filter ((path, id) :: stack) ((path, nodes) :: out)

/-- `path_is_below_includes`. -/
def pathIsBelowIncludes (path : Path) : Option (List Path) → Bool
  | none => true
  | some includes => includes.any fun ipath => ipath <+: path

/-- `perform_deletion`. `removable` tells which entries the system deletes. -/
def performDeletion (removable : Path → Bool) (dryRun : Bool) (path : Path) (disk : LocalTree) :
    Option LocalTree :=
  if dryRun then some disk
  else if removable path then some (disk.remove path)
  else none

/-- `process_local_directory`. -/
def processLocalDirectory (removable : Path → Bool) (dryRun : Bool) (target path : Path)
    (snapshotNodeNames : List String) (disk : LocalTree) : Option LocalTree :=
  match disk.readDir target path with
  | .notFound => some disk
  | .failed => none
  | .dir place =>
    ((disk.names place).filter fun name => toStringLossy name ∉ snapshotNodeNames).foldlM
      (fun disk name => performDeletion removable dryRun (place ++ [.normal name]) disk) disk

/-- The trees that `delete_nodes` works on. -/
def syncTrees (opts : SyncOpts) (out : List (Path × List Node)) : List (Path × List Node) :=
  (if opts.noPreserveRoot then out else out.tail).filter fun x => pathIsBelowIncludes x.1 opts.includes

/-- The loop of `delete_nodes` over the stream `out` of the trees. -/
def deleteNodes (removable : Path → Bool) (opts : SyncOpts) (target : Path)
    (out : List (Path × List Node)) (disk : LocalTree) : Option LocalTree :=
  (syncTrees opts out).foldlM (fun disk x => processLocalDirectory removable opts.dryRun target x.1
    (x.2.map fun node => node.name) disk) disk

/-! ## What was restored -/

/-- Where the restore puts a node: `strip_prefix` and `secure_join`. -/
def restorePath (target : Path) (stripPrefix : Option Path) (path : Path) : Option Path :=
  match stripPrefix with
  | none => some (target ++ path)
  | some start => if StrictPrefix start path then some (target ++ path.drop start.length) else none

/-- Without a strip prefix this is what `secure_join` gives for a normalized target and a path of
names. -/
theorem secureJoin_restorePath (env : PathBuf.PathEnv) {base relative : Bytes} {target path : Path}
    (hbase : PathBuf.NormalizedPath base) (htarget : PathBuf.components base = StdPath.embed target)
    {names : List Bytes} (hpath : path = names.map .normal)
    (hrelative : PathBuf.components relative = StdPath.embed path) :
    ∃ place result, restorePath target none path = some place ∧
      PathBuf.secureJoin env base relative = .ok result ∧
      PathBuf.components result = StdPath.embed place := by
  obtain ⟨habs, hnormalized⟩ := hbase.components_normalizeLexically
  have hnames : ∀ c ∈ PathBuf.components relative, ∃ name, c = .normal name := by
    rw [hrelative, hpath, StdPath.embed, List.map_map]
    intro c hc
    obtain ⟨name, -, rfl⟩ := List.mem_map.mp hc
    exact ⟨name, rfl⟩
  obtain ⟨result, hresult, hcomponents⟩ := PathBuf.secureJoin_of_names env habs hnames
  refine ⟨target ++ path, result, rfl, hresult, ?_⟩
  rw [hcomponents, hnormalized, htarget, hrelative, StdPath.embed, StdPath.embed, StdPath.embed,
    List.map_append]

section Restored

variable (load : ID → Except StreamError (List Node)) (filter : PathFilter) (root : ID)
  (target : Path) (stripPrefix : Option Path)

/-- An included node of the snapshot is restored to the path. -/
def RestoredTo (place : Path) : Prop :=
  ∃ path node, InTree load root path node ∧ filter.allow path = true ∧
    restorePath target stripPrefix path = some place

/-- Wherever a restored path leads below the directory of a tree, the tree names the entry on the
way. -/
def SameNames (disk : LocalTree) (trees : List (Path × List Node)) : Prop :=
  ∀ path place, RestoredTo load filter root target stripPrefix (target ++ path) →
    disk.entryAt target path = some place → ∀ x ∈ trees, ∀ dir, disk.readDir target x.1 = .dir dir →
      ∀ name : Bytes, dir ++ [.normal name] <+: place →
        toStringLossy name ∈ x.2.map fun node => node.name

/-- Every restored path that was there is there as before, and no entry that was deleted is one that
an included node is restored to. -/
structure KeepsRestored (disk disk' : LocalTree) : Prop where
  present : ∀ path place, RestoredTo load filter root target stripPrefix (target ++ path) →
    disk.entryAt target path = some place → disk'.entryAt target path = some place
  deleted : ∀ place, (disk.lookup place).isSome → disk'.lookup place = none → ∀ path,
    RestoredTo load filter root target stripPrefix (target ++ path) →
      disk.entryAt target path ≠ some place

/-- There is no link in the place of a directory of the snapshot. -/
structure NoDirLinks (disk : LocalTree) (trees : List (Path × List Node)) : Prop where
  trees : ∀ x ∈ trees, disk.NoLinks target x.1
  restored : ∀ path, RestoredTo load filter root target stripPrefix (target ++ path) →
    disk.NoLinks target path.dropLast

end Restored

/-! ## Lookups -/

section Lookups

variable {disk disk' : LocalTree} {target path place p : Path}

theorem LocalTree.lookup_remove (disk : LocalTree) (path p : Path) :
    (disk.remove path).lookup p = if path <+: p then none else disk.lookup p := by
  rw [LocalTree.remove, Table.lookup_foldl_erase]
  simp only [List.mem_filter, decide_eq_true_eq]
  by_cases hpre : path <+: p
  · rw [if_pos hpre]
    split
    · rfl
    · rename_i hnot
      have hkey : p ∉ disk.keys := fun hmem => hnot ⟨hmem, hpre⟩
      exact AList.lookup_eq_none.mpr hkey
  · rw [if_neg hpre, if_neg fun h => hpre h.2]

theorem LocalTree.mem_names {name : Bytes} :
    name ∈ disk.names place ↔ (disk.lookup (place ++ [.normal name])).isSome := by
  rw [LocalTree.names, List.mem_filterMap, AList.lookup_isSome]
  constructor
  · rintro ⟨p, hp, hname⟩
    obtain ⟨hkey, hparent⟩ := List.mem_filter.mp hp
    rw [decide_eq_true_eq] at hparent
    have hpath : p = place ++ [.normal name] := by
      unfold fileName at hname
      split at hname
      · rename_i name' hlast
        cases hname
        obtain ⟨init, rfl⟩ := List.getLast?_eq_some_iff.mp hlast
        rw [← hparent, List.dropLast_concat]
      · cases hname
    rw [← hpath]
    exact AList.mem_keys.mpr hkey
  · intro hkey
    refine ⟨place ++ [.normal name], List.mem_filter.mpr ⟨AList.mem_keys.mp hkey, ?_⟩, ?_⟩
    · simp
    · simp [fileName]

/-- What was there is there unchanged, or it is gone together with all that is below it. -/
def LocalTree.Shrinks (disk disk' : LocalTree) : Prop :=
  (∀ p, disk'.lookup p = disk.lookup p ∨ disk'.lookup p = none) ∧
    ∀ p, disk.lookup p ≠ none → disk'.lookup p = none → ∀ q, p <+: q → disk'.lookup q = none

theorem LocalTree.Shrinks.refl (disk : LocalTree) : disk.Shrinks disk :=
  ⟨fun _ => Or.inl rfl, fun _ hsome hnone => absurd hnone hsome⟩

theorem LocalTree.Shrinks.trans {disk'' : LocalTree} (h : disk.Shrinks disk')
    (h' : disk'.Shrinks disk'') : disk.Shrinks disk'' := by
  have hgone : ∀ p, disk'.lookup p = none → disk''.lookup p = none := by
    intro p hp
    rcases h'.1 p with heq | hnone
    · rw [heq, hp]
    · exact hnone
  refine ⟨fun p => ?_, fun p hsome hnone q hpq => ?_⟩
  · rcases h'.1 p with heq | hnone
    · rw [heq]
      exact h.1 p
    · exact Or.inr hnone
  · by_cases hp : disk'.lookup p = none
    · exact hgone q (h.2 p hsome hp q hpq)
    · exact h'.2 p hp hnone q hpq

theorem LocalTree.shrinks_remove (disk : LocalTree) (path : Path) :
    disk.Shrinks (disk.remove path) := by
  refine ⟨fun p => ?_, fun p hsome hnone q hpq => ?_⟩
  · rw [LocalTree.lookup_remove]
    split
    · exact Or.inr rfl
    · exact Or.inl rfl
  · rw [LocalTree.lookup_remove] at hnone ⊢
    split at hnone
    · rename_i hpre
      rw [if_pos (hpre.trans hpq)]
    · exact absurd hnone hsome

/-- A well-formed state stays so. -/
theorem LocalTree.Shrinks.wf (h : disk.Shrinks disk') (hwf : disk.WF) : disk'.WF := by
  intro p kind hp above hne habove
  have hold : disk.lookup p = some kind := by
    rcases h.1 p with heq | hnone
    · rw [← heq, hp]
    · rw [hnone] at hp
      cases hp
  have hdir := hwf p kind hold above hne habove
  rcases h.1 above with heq | hnone
  · rw [heq, hdir]
  · have hgone := h.2 above (by rw [hdir]; exact Option.some_ne_none _) hnone p habove.1
    rw [hgone] at hp
    cases hp

/-- A directory is found in the directory above it, or behind a link in it. -/
theorem LocalTree.readDir_snoc {c : Component} : disk.readDir target (path ++ [c]) = .dir place ↔
    ∃ parent, disk.readDir target path = .dir parent ∧
      (disk.lookup (parent ++ [c]) = some .dir ∧ place = parent ++ [c] ∨
        disk.lookup (parent ++ [c]) = some (.link place) ∧ disk.lookup place = some .dir) := by
  have hsnoc : disk.readDir target (path ++ [c]) = disk.enter (disk.readDir target path) c := by
    rw [LocalTree.readDir, LocalTree.readDir, List.foldl_append, List.foldl_cons, List.foldl_nil]
  rw [hsnoc]
  cases disk.readDir target path with
  | dir parent =>
    simp only [LocalTree.enter, ReadDir.dir.injEq, exists_eq_left']
    split <;> rename_i hlook <;> rw [hlook]
    · simp
    · simp [eq_comm]
    · simp
    · split <;> rename_i hdest
      · constructor
        · rintro ⟨⟩
          exact Or.inr ⟨rfl, hdest⟩
        · rintro (⟨⟨⟩, -⟩ | ⟨⟨⟩, -⟩)
          rfl
      all_goals
        refine iff_of_false nofun ?_
        rintro (⟨⟨⟩, -⟩ | ⟨⟨⟩, hdir⟩)
        simp_all
  | notFound | failed =>
    refine iff_of_false nofun ?_
    rintro ⟨parent, ⟨⟩, -⟩

/-- Without links a directory is read at its own path. -/
theorem LocalTree.NoLinks.place_eq (h : disk.NoLinks target path)
    (hread : disk.readDir target path = .dir place) : place = target ++ path := by
  induction path using List.reverseRecOn generalizing place with
  | nil =>
    cases hread
    rw [List.append_nil]
  | append_singleton path c ih =>
    have hpath : disk.NoLinks target path := fun way hne hway =>
      h way hne (hway.trans (List.prefix_append path [c]))
    have hend := h (path ++ [c]) (by simp) (List.prefix_refl _)
    rw [← List.append_assoc] at hend
    obtain ⟨parent, hparent, ⟨-, rfl⟩ | ⟨hlink, -⟩⟩ := LocalTree.readDir_snoc.mp hread
    · rw [ih hpath hparent, List.append_assoc]
    · rw [ih hpath hparent] at hlink
      exact absurd hlink (hend place)

theorem LocalTree.Shrinks.lookup_eq (h : disk.Shrinks disk') {kind : LocalKind}
    (hp : disk'.lookup p = some kind) : disk.lookup p = some kind := by
  rcases h.1 p with heq | hnone
  · rw [← heq, hp]
  · rw [hnone] at hp
    cases hp

/-- What is above something that stays stays. -/
theorem LocalTree.Shrinks.keeps_above (h : disk.Shrinks disk') {q : Path} (hpq : p <+: q)
    (hq : disk'.lookup q ≠ none) : disk'.lookup p = disk.lookup p := by
  rcases h.1 p with heq | hnone
  · exact heq
  · by_cases hp : disk.lookup p = none
    · rw [hnone, hp]
    · exact absurd (h.2 p hp hnone q hpq) hq

/-- A directory that is still found was found at the same place. -/
theorem LocalTree.Shrinks.readDir_eq (h : disk.Shrinks disk')
    (hread : disk'.readDir target path = .dir place) : disk.readDir target path = .dir place := by
  induction path using List.reverseRecOn generalizing place with
  | nil => exact hread
  | append_singleton path c ih =>
    obtain ⟨parent, hparent, hstep⟩ := LocalTree.readDir_snoc.mp hread
    exact LocalTree.readDir_snoc.mpr ⟨parent, ih hparent,
      hstep.imp (And.imp_left h.lookup_eq) (And.imp h.lookup_eq h.lookup_eq)⟩

theorem LocalTree.entryAt_snoc (disk : LocalTree) (target path : Path) (c : Component) :
    disk.entryAt target (path ++ [c]) = some place ↔ ∃ dir, disk.readDir target path = .dir dir ∧
      place = dir ++ [c] ∧ (disk.lookup place).isSome := by
  rw [LocalTree.entryAt, List.dropLast_concat, List.getLast?_concat]
  cases disk.readDir target path with
  | dir dir =>
    dsimp only
    constructor
    · intro h
      split at h
      · cases h
        exact ⟨dir, rfl, rfl, ‹_›⟩
      · cases h
    · rintro ⟨_, ⟨⟩, rfl, hsome⟩
      rw [if_pos hsome]
  | notFound | failed =>
    constructor
    · exact nofun
    · rintro ⟨_, ⟨⟩, -⟩

theorem LocalTree.of_entryAt (h : disk.entryAt target path = some place) :
    ∃ init c dir, path = init ++ [c] ∧ disk.readDir target init = .dir dir ∧ place = dir ++ [c] ∧
      (disk.lookup place).isSome := by
  have hne : path ≠ [] := by
    rintro rfl
    cases h
  rw [← List.dropLast_append_getLast hne] at h ⊢
  obtain ⟨dir, hdir, hplace, hsome⟩ := (disk.entryAt_snoc target _ _).mp h
  exact ⟨_, _, dir, rfl, hdir, hplace, hsome⟩

/-- **A directory is still found** when the entries on the way to it stay, and it stays itself. -/
theorem LocalTree.Shrinks.readDir_of_kept (h : disk.Shrinks disk')
    (hread : disk.readDir target path = .dir place) (hplace : disk'.lookup place = disk.lookup place)
    (hway : ∀ way entry, way <+: path → disk.entryAt target way = some entry →
      disk'.lookup entry = disk.lookup entry) : disk'.readDir target path = .dir place := by
  induction path using List.reverseRecOn generalizing place with
  | nil => exact hread
  | append_singleton path c ih =>
    obtain ⟨parent, hparent, hstep⟩ := LocalTree.readDir_snoc.mp hread
    have hsome : (disk.lookup (parent ++ [c])).isSome := by
      rcases hstep with ⟨hlook, -⟩ | ⟨hlook, -⟩ <;> rw [hlook] <;> rfl
    have hkept := hway _ _ (List.prefix_refl _) ((disk.entryAt_snoc target path c).mpr
      ⟨parent, hparent, rfl, hsome⟩)
    have hstays : disk'.lookup (parent ++ [c]) ≠ none := by
      rw [hkept]
      exact Option.isSome_iff_ne_none.mp hsome
    refine LocalTree.readDir_snoc.mpr ⟨parent, ih hparent
      (h.keeps_above (List.prefix_append parent [c]) hstays)
      fun way entry hle => hway way entry (hle.trans (List.prefix_append path [c])), ?_⟩
    rw [hkept]
    exact hstep.imp id (And.imp_right hplace.trans)

end Lookups

/-! ## What is deleted -/

section Deletion

variable {removable : Path → Bool} {dryRun : Bool} {target path : Path} {disk disk' : LocalTree}

/-- The deletions in one directory. -/
theorem lookup_foldlM_performDeletion {place : Path} {names : List Bytes}
    (h : names.foldlM (fun disk name =>
      performDeletion removable dryRun (place ++ [Component.normal name]) disk) disk = some disk') :
    disk.Shrinks disk' ∧
      (∀ q, (dryRun = true ∨ ∀ name ∈ names, ¬ place ++ [Component.normal name] <+: q) →
        disk'.lookup q = disk.lookup q) ∧
      (dryRun = false → ∀ name ∈ names, ∀ q, place ++ [Component.normal name] <+: q →
        disk'.lookup q = none) := by
  induction names generalizing disk with
  | nil =>
    cases h
    exact ⟨.refl _, fun _ _ => rfl, fun _ name hname => absurd hname List.not_mem_nil⟩
  | cons name names ih =>
    rw [List.foldlM_cons] at h
    obtain ⟨disk₁, hfirst, hrest⟩ := Option.bind_eq_some_iff.mp h
    obtain ⟨hshrinks, hkeep, hgone⟩ := ih hrest
    cases dryRun with
    | true =>
      cases hfirst
      exact ⟨hshrinks, fun q _ => hkeep q (Or.inl rfl), fun hfalse => by cases hfalse⟩
    | false =>
      have hremove : disk₁ = disk.remove (place ++ [.normal name]) := by
        unfold performDeletion at hfirst
        rw [if_neg Bool.false_ne_true] at hfirst
        split at hfirst
        · exact (Option.some.inj hfirst).symm
        · cases hfirst
      subst hremove
      refine ⟨(disk.shrinks_remove _).trans hshrinks, fun q hq => ?_, fun _ n hn q hq => ?_⟩
      · have hnot := hq.resolve_left Bool.false_ne_true
        rw [hkeep q (Or.inr fun n hn => hnot n (List.mem_cons_of_mem _ hn)),
          LocalTree.lookup_remove, if_neg (hnot name List.mem_cons_self)]
      · -- what the first deletion took away stays away
        rcases List.mem_cons.mp hn with rfl | hn
        · have hnone : (disk.remove (place ++ [.normal n])).lookup q = none := by
            rw [LocalTree.lookup_remove, if_pos hq]
          rcases hshrinks.1 q with heq | hgone'
          · rw [heq, hnone]
          · exact hgone'
        · exact hgone rfl n hn q hq

/-- **What is deleted in the directory of one tree.** -/
theorem processLocalDirectory_spec {names : List String}
    (h : processLocalDirectory removable dryRun target path names disk = some disk') :
    disk.Shrinks disk' ∧
      (∀ q, (dryRun = true ∨ ∀ dir, disk.readDir target path = .dir dir → ∀ name,
          dir ++ [.normal name] <+: q → toStringLossy name ∈ names) →
        disk'.lookup q = disk.lookup q) ∧
      (dryRun = false → ∀ dir, disk.readDir target path = .dir dir → ∀ name,
        toStringLossy name ∉ names → (disk.lookup (dir ++ [.normal name])).isSome →
        ∀ q, dir ++ [.normal name] <+: q → disk'.lookup q = none) := by
  unfold processLocalDirectory at h
  cases hread : disk.readDir target path with
  | notFound =>
    rw [hread] at h
    cases h
    exact ⟨.refl _, fun _ _ => rfl, fun _ _ hdir => by cases hdir⟩
  | failed =>
    rw [hread] at h
    cases h
  | dir place =>
    rw [hread] at h
    obtain ⟨hshrinks, hkeep, hgone⟩ := lookup_foldlM_performDeletion h
    refine ⟨hshrinks, fun q hq => hkeep q (hq.imp_right fun hq name hname hpre => ?_), ?_⟩
    · have hnot := (List.mem_filter.mp hname).2
      rw [decide_eq_true_eq] at hnot
      exact hnot (hq place rfl name hpre)
    · rintro hdry _ ⟨⟩ name hname hsome q hq
      refine hgone hdry name (List.mem_filter.mpr ⟨LocalTree.mem_names.mpr hsome, ?_⟩) q hq
      rw [decide_eq_true_eq]
      exact hname

/-- **What stays in the directories of the trees.** -/
theorem deleteTrees_keeps {trees : List (Path × List Node)}
    (h : trees.foldlM (fun disk x => processLocalDirectory removable dryRun target x.1
      (x.2.map fun node => node.name) disk) disk = some disk') :
    disk.Shrinks disk' ∧
      ∀ q, (dryRun = true ∨ ∀ x ∈ trees, ∀ dir, disk.readDir target x.1 = .dir dir → ∀ name,
        dir ++ [.normal name] <+: q → toStringLossy name ∈ x.2.map fun node => node.name) →
        disk'.lookup q = disk.lookup q := by
  induction trees generalizing disk with
  | nil =>
    cases h
    exact ⟨.refl _, fun _ _ => rfl⟩
  | cons x trees ih =>
    rw [List.foldlM_cons] at h
    obtain ⟨disk₁, hfirst, hrest⟩ := Option.bind_eq_some_iff.mp h
    obtain ⟨hshrinks, hkeep, -⟩ := processLocalDirectory_spec hfirst
    obtain ⟨hshrinks', hkeep'⟩ := ih hrest
    refine ⟨hshrinks.trans hshrinks', fun q hq => ?_⟩
    rw [hkeep' q (hq.imp_right fun hq y hy dir hread =>
      hq y (List.mem_cons_of_mem _ hy) dir (hshrinks.readDir_eq hread)),
      hkeep q (hq.imp_right fun hq => hq x List.mem_cons_self)]

/-- **What is deleted in the directories of the trees**, as long as these are found when it is their
turn. -/
theorem deleteTrees_deletes {trees : List (Path × List Node)} (hwf : disk.WF) (hdry : dryRun = false)
    (h : trees.foldlM (fun disk x => processLocalDirectory removable dryRun target x.1
      (x.2.map fun node => node.name) disk) disk = some disk') {x : Path × List Node}
    (hx : x ∈ trees) {dir q : Path}
    (hdir : ∀ disk₁ : LocalTree, disk.Shrinks disk₁ → disk₁.Shrinks disk' →
      disk₁.readDir target x.1 = .dir dir) {name : Bytes}
    (hname : toStringLossy name ∉ x.2.map fun node => node.name) (hpre : dir ++ [.normal name] <+: q) :
    disk'.lookup q = none := by
  induction trees generalizing disk with
  | nil => cases hx
  | cons y trees ih =>
    rw [List.foldlM_cons] at h
    obtain ⟨disk₁, hfirst, hrest⟩ := Option.bind_eq_some_iff.mp h
    obtain ⟨hshrinks, -, hgone⟩ := processLocalDirectory_spec hfirst
    have hshrinks' := (deleteTrees_keeps hrest).1
    rcases List.mem_cons.mp hx with rfl | hx
    · by_contra hsome
      have hstays := hshrinks'.keeps_above (List.prefix_refl q) hsome
      have hq : disk₁.lookup q ≠ none := hstays ▸ hsome
      -- everything above the entry is a directory, so the entry is listed
      have hlisted : (disk.lookup (dir ++ [.normal name])).isSome := by
        have hold := hshrinks.keeps_above (List.prefix_refl q) hq
        by_cases heq : dir ++ [.normal name] = q
        · rw [heq, ← hold]
          exact Option.isSome_iff_ne_none.mpr hq
        · obtain ⟨kind, hkind⟩ := Option.ne_none_iff_exists'.mp (hold ▸ hq)
          rw [hwf q kind hkind _ (by simp) ⟨hpre, heq⟩]
          rfl
      exact hq (hgone hdry dir (hdir disk (.refl _) (hshrinks.trans hshrinks')) name hname hlisted q
        hpre)
    · exact ih (hshrinks.wf hwf) hrest hx fun disk₂ h₁ h₂ => hdir disk₂ (hshrinks.trans h₁) h₂

end Deletion

/-! ## The trees of the walk -/

section Walk

variable {load : ID → Except StreamError (List Node)} {filter : PathFilter} {root id : ID}
  {path : Path} {nodes : List Node}

/-- The snapshot has a tree at the path. -/
inductive TreeAt (load : ID → Except StreamError (List Node)) (root : ID) : Path → ID → Prop where
  | root : TreeAt load root [] root
  | sub {path : Path} {id sub : ID} {nodes : List Node} {node : Node} : TreeAt load root path id →
      load id = .ok nodes → node ∈ nodes → node.tree = some sub →
      TreeAt load root (joinName path node.nameBytes) sub

theorem TreeAt.stored (h : TreeAt load root path id) (hstored : StoredTree load root) :
    StoredTree load id := by
  induction h with
  | root => exact hstored
  | sub _ hload hnode htree ih => exact (ih.level hload).stored _ hnode _ htree

/-- The walk yields the trees of the snapshot. -/
theorem TreeWalk.treeAt {stack : List (Path × ID)} {out : List (Path × List Node)}
    (h : TreeWalk load filter stack out) (hstack : ∀ e ∈ stack, TreeAt load root e.1 e.2) :
    ∀ x ∈ out, ∃ id, TreeAt load root x.1 id ∧ load id = .ok x.2 := by
  induction h with
  | nil => exact fun x hx => absurd hx List.not_mem_nil
  | skip _ _ ih => exact ih fun e he => hstack e (List.mem_cons_of_mem _ he)
  | error _ _ => exact fun x hx => absurd hx List.not_mem_nil
  | @visit path id stack nodes out _ hload _ ih =>
    have htop : TreeAt load root path id := hstack _ List.mem_cons_self
    rw [List.forall_mem_cons]
    refine ⟨⟨id, htop, hload⟩, ih fun e he => ?_⟩
    rcases List.mem_append.mp he with hchild | hrest
    · obtain ⟨node, hnode, hsub⟩ := List.mem_filterMap.mp hchild
      obtain ⟨sub, htree, hpush⟩ := Option.bind_eq_some_iff.mp hsub
      split at hpush
      · cases hpush
        exact .sub htop hload hnode htree
      · cases hpush
    · exact hstack e (List.mem_cons_of_mem _ hrest)

/-- **What lies below the path of a tree is in that tree.** -/
theorem TreeAt.pathOf (h : TreeAt load root path id) (hstored : StoredTree load root)
    (hload : load id = .ok nodes) {below : Path} {found : Node} (hin : InTree load root below found)
    (hpre : StrictPrefix path below) : PathOf load path nodes below found := by
  induction h generalizing nodes with
  | root =>
    obtain ⟨nodes', hload', hpath⟩ := hin
    rw [hload] at hload'
    cases hload'
    exact hpath
  | @sub path id sub nodes₀ node htree hload₀ hnode hsub ih =>
    have hlevel := (htree.stored hstored).level hload₀
    have hjoin := joinName_of_singleNormal (hlevel.normal node hnode) path
    rw [hjoin] at hpre ⊢
    have hpath := ih hload₀ ((StrictPrefix.append_singleton _ _).trans_le hpre.1)
    cases hpath with
    | @entry _ _ node' hnode' =>
      -- the path ends at this level
      rw [joinName_of_singleNormal (hlevel.normal _ hnode')] at hpre
      have hlen := hpre.length_lt
      simp at hlen
    | @under _ _ node' id' sub' _ _ hnode' htree' hload' hpath' =>
      have hjoin' := joinName_of_singleNormal (hlevel.normal node' hnode') path
      obtain ⟨node'', -, hpre'⟩ :=
        hpath'.exists_entry ((hlevel.stored node' hnode' id' htree').level hload')
      rw [hjoin'] at hpre' hpath'
      have hname := next_unique hpre.1 ((List.prefix_append _ _).trans hpre')
      have heq : node = node' := hlevel.eq_of_nameBytes hnode hnode' (Component.normal.inj hname)
      subst heq
      rw [hsub] at htree'
      cases htree'
      rw [hload] at hload'
      cases hload'
      exact hpath'

theorem InTree.ne_nil (hstored : StoredTree load root) {found : Node}
    (h : InTree load root path found) : path ≠ [] := by
  obtain ⟨nodes, hload, hpath⟩ := h
  obtain ⟨node, -, hpre⟩ := hpath.exists_entry (hstored.level hload)
  rintro rfl
  simp at hpre

/-- Every path above that of a node, down from the level, is that of a node. -/
theorem PathOf.exists_above {base way : Path} {found : Node} (h : PathOf load base nodes path found)
    (hlevel : Level load nodes) (hbase : StrictPrefix base way) (hway : way <+: path) :
    ∃ node, PathOf load base nodes way node := by
  induction h with
  | @entry base nodes node hnode =>
    have hjoin := joinName_of_singleNormal (hlevel.normal node hnode) base
    rw [hjoin] at hway
    have heq : way = base ++ [.normal node.nameBytes] := by
      refine hway.eq_of_length_le ?_
      have hlt := hbase.length_lt
      rw [List.length_append, List.length_singleton]
      omega
    rw [heq, ← hjoin]
    exact ⟨node, .entry hnode⟩
  | @under base nodes node id sub path found hnode htree hload hbelow ih =>
    have hsub := (hlevel.stored node hnode id htree).level hload
    have hjoin := joinName_of_singleNormal (hlevel.normal node hnode) base
    obtain ⟨node', -, hpre⟩ := hbelow.exists_entry hsub
    have hle : joinName base node.nameBytes <+: path := (List.prefix_append _ _).trans hpre
    rcases prefix_or_strictPrefix hway hle with habove | hlt
    · have heq : way = joinName base node.nameBytes := by
        refine habove.eq_of_length_le ?_
        have hlen := hbase.length_lt
        rw [hjoin, List.length_append, List.length_singleton]
        omega
      exact ⟨node, heq ▸ .entry hnode⟩
    · obtain ⟨found', hfound'⟩ := ih hsub hlt hway
      exact ⟨found', .under hnode htree hload hfound'⟩

/-- The nodes of a subtree are below its node. -/
theorem PathOf.sub {base : Path} {found node : Node} {sub : List Node}
    (h : PathOf load base nodes path found) (htree : found.tree = some id) (hload : load id = .ok sub)
    (hnode : node ∈ sub) : PathOf load base nodes (joinName path node.nameBytes) node := by
  induction h with
  | entry hmem => exact .under hmem htree hload (.entry hnode)
  | under hmem htree' hload' _ ih => exact .under hmem htree' hload' (ih htree)

/-- A tree below the root is that of a node. -/
theorem TreeAt.exists_node (h : TreeAt load root path id) :
    (path = [] ∧ id = root) ∨ ∃ node, InTree load root path node ∧ node.tree = some id := by
  induction h with
  | root => exact Or.inl ⟨rfl, rfl⟩
  | @sub path id sub nodes node _ hload hnode htree ih =>
    right
    rcases ih with ⟨rfl, rfl⟩ | ⟨found, ⟨top, htop, hfound⟩, hid⟩
    · exact ⟨node, ⟨nodes, hload, .entry hnode⟩, htree⟩
    · exact ⟨node, ⟨top, htop, hfound.sub hid hload hnode⟩, htree⟩

/-- The trees of the walk are not excluded. -/
theorem TreeWalk.allow {stack : List (Path × ID)} {out : List (Path × List Node)}
    (h : TreeWalk load filter stack out) : ∀ x ∈ out, filter.allow x.1 = true := by
  induction h with
  | nil => exact fun x hx => absurd hx List.not_mem_nil
  | skip _ _ ih => exact ih
  | error _ _ => exact fun x hx => absurd hx List.not_mem_nil
  | visit hallow _ _ ih =>
    rw [List.forall_mem_cons]
    exact ⟨hallow, ih⟩

theorem mem_of_syncTrees {opts : SyncOpts} {out : List (Path × List Node)} {x : Path × List Node}
    (h : x ∈ syncTrees opts out) : x ∈ out := by
  have hfilter := (List.mem_filter.mp h).1
  split at hfilter
  · exact hfilter
  · exact List.mem_of_mem_tail hfilter

section Restored

variable {stripPrefix : Option Path} {target way : Path}

theorem restoredTo_append :
    RestoredTo load filter root target stripPrefix (target ++ path) ↔
      ∃ below node, InTree load root below node ∧ filter.allow below = true ∧
        (stripPrefix = none ∧ below = path ∨ ∃ start, stripPrefix = some start ∧
          StrictPrefix start below ∧ below = start ++ path) := by
  constructor
  · rintro ⟨below, node, hin, hallow, hplace⟩
    refine ⟨below, node, hin, hallow, ?_⟩
    cases stripPrefix with
    | none =>
      refine Or.inl ⟨rfl, ?_⟩
      exact List.append_cancel_left (Option.some.inj hplace)
    | some start =>
      simp only [restorePath] at hplace
      split at hplace
      · rename_i hlt
        have hdrop := List.append_cancel_left (Option.some.inj hplace)
        obtain ⟨rest, rfl⟩ := hlt.1
        rw [List.drop_left] at hdrop
        exact Or.inr ⟨start, rfl, hlt, by rw [hdrop]⟩
      · cases hplace
  · rintro ⟨below, node, hin, hallow, ⟨rfl, rfl⟩ | ⟨start, rfl, hlt, rfl⟩⟩
    · exact ⟨below, node, hin, hallow, rfl⟩
    · refine ⟨_, node, hin, hallow, ?_⟩
      rw [restorePath, if_pos hlt, List.drop_left]

/-- What is above a restored path below the target is restored. -/
theorem RestoredTo.above (hstored : StoredTree load root)
    (h : RestoredTo load filter root target stripPrefix (target ++ path)) (hway : way <+: path)
    (hne : way ≠ []) : RestoredTo load filter root target stripPrefix (target ++ way) := by
  have hup : ∀ {below above : Path} {node : Node}, InTree load root below node → above ≠ [] →
      above <+: below → ∃ node', InTree load root above node' := by
    rintro below above node ⟨nodes, hload, hpath⟩ hne hle
    obtain ⟨node', hnode'⟩ := hpath.exists_above (hstored.level hload)
      ⟨List.nil_prefix, hne.symm⟩ hle
    exact ⟨node', nodes, hload, hnode'⟩
  obtain ⟨below, node, hin, hallow, ⟨rfl, rfl⟩ | ⟨start, rfl, hlt, rfl⟩⟩ := restoredTo_append.mp h
  · obtain ⟨node', hin'⟩ := hup hin hne hway
    exact restoredTo_append.mpr ⟨way, node', hin', filter.closed hway hallow, Or.inl ⟨rfl, rfl⟩⟩
  · have hle : start ++ way <+: start ++ path := (List.prefix_append_right_inj start).mpr hway
    have hlt' : StrictPrefix start (start ++ way) :=
      ⟨List.prefix_append _ _, fun heq => hne (List.append_right_eq_self.mp heq.symm)⟩
    obtain ⟨node', hin'⟩ := hup hin (by simp [hne]) hle
    exact restoredTo_append.mpr
      ⟨_, node', hin', filter.closed hle hallow, Or.inr ⟨start, rfl, hlt', rfl⟩⟩

/-- Without a strip prefix the included nodes are restored to their paths. -/
theorem restoredTo_of_not_stripped (hstored : StoredTree load root) (hstrip : stripPrefix.getD [] = []) :
    RestoredTo load filter root target stripPrefix (target ++ path) ↔
      ∃ node, InTree load root path node ∧ filter.allow path = true := by
  rw [restoredTo_append]
  constructor
  · rintro ⟨below, node, hin, hallow, ⟨-, rfl⟩ | ⟨start, rfl, -, rfl⟩⟩
    · exact ⟨node, hin, hallow⟩
    · have hnil : start = [] := hstrip
      subst hnil
      exact ⟨node, hin, hallow⟩
  · rintro ⟨node, hin, hallow⟩
    refine ⟨path, node, hin, hallow, ?_⟩
    cases stripPrefix with
    | none => exact Or.inl ⟨rfl, rfl⟩
    | some start =>
      have hnil : start = [] := hstrip
      subst hnil
      exact Or.inr ⟨[], rfl, ⟨List.nil_prefix, (hin.ne_nil hstored).symm⟩, rfl⟩

end Restored

variable {stripPrefix : Option Path} {target : Path} {opts : SyncOpts} {removable : Path → Bool}
  {disk disk' : LocalTree} {out : List (Path × List Node)}

/-- Without a strip prefix and without links the names are the same. -/
theorem sameNames_of_not_stripped (hstored : StoredTree load root)
    (hwalk : TreeWalk load filter [([], root)] out) (hstrip : stripPrefix.getD [] = [])
    (hlinks : NoDirLinks load filter root target stripPrefix disk (syncTrees opts out)) :
    SameNames load filter root target stripPrefix disk (syncTrees opts out) := by
  intro path place hrestored hentry x hx dir hread name hpre
  obtain ⟨node, hin, -⟩ := (restoredTo_of_not_stripped hstored hstrip).mp hrestored
  have hdir := (hlinks.trees x hx).place_eq hread
  have hplace : place = target ++ path := by
    obtain ⟨init, c, parent, rfl, hparent, rfl, -⟩ := disk.of_entryAt hentry
    have hinit := hlinks.restored _ hrestored
    rw [List.dropLast_concat] at hinit
    rw [hinit.place_eq hparent, List.append_assoc]
  obtain ⟨id, htree, hload⟩ :=
    hwalk.treeAt (fun e he => by rw [List.mem_singleton.mp he]; exact .root) x (mem_of_syncTrees hx)
  rw [hplace, hdir, List.append_assoc, List.prefix_append_right_inj] at hpre
  have hbelow := htree.pathOf hstored hload hin ((StrictPrefix.append_singleton _ _).trans_le hpre)
  obtain ⟨found, hfound, hnext⟩ := hbelow.exists_entry ((htree.stored hstored).level hload)
  have hname : name = found.nameBytes := Component.normal.inj (next_unique hpre hnext)
  rw [hname, toStringLossy_nameBytes]
  exact List.mem_map_of_mem (f := fun node => node.name) hfound

/-- Where the names are the same, nothing that was restored is deleted. -/
theorem keepsRestored_of_sameNames (hstored : StoredTree load root)
    (hdelete : deleteNodes removable opts target out disk = some disk')
    (hsame : opts.dryRun = true ∨
      SameNames load filter root target stripPrefix disk (syncTrees opts out)) :
    KeepsRestored load filter root target stripPrefix disk disk' := by
  obtain ⟨hshrinks, hkeep⟩ := deleteTrees_keeps hdelete
  have hstays : ∀ path place, RestoredTo load filter root target stripPrefix (target ++ path) →
      disk.entryAt target path = some place → disk'.lookup place = disk.lookup place := by
    intro path place hrestored hentry
    exact hkeep place (hsame.imp_right fun hsame => hsame path place hrestored hentry)
  refine ⟨fun path place hrestored hentry => ?_, fun place hsome hnone path hrestored hentry => ?_⟩
  · have hplace := hstays path place hrestored hentry
    obtain ⟨init, c, dir, rfl, hdir, rfl, hsome⟩ := disk.of_entryAt hentry
    have hthere : (disk'.lookup (dir ++ [c])).isSome := by rwa [hplace]
    refine (disk'.entryAt_snoc target init c).mpr ⟨dir, ?_, rfl, hthere⟩
    refine hshrinks.readDir_of_kept hdir
      (hshrinks.keeps_above (List.prefix_append dir [c]) (Option.isSome_iff_ne_none.mp hthere)) ?_
    -- the directories on the way are restored too
    intro way entry hway hentry'
    have hne : way ≠ [] := by
      rintro rfl
      cases hentry'
    exact hstays way entry (hrestored.above hstored (hway.trans (List.prefix_append init [c])) hne)
      hentry'
  · rw [hstays path place hrestored hentry] at hnone
    rw [hnone] at hsome
    cases hsome

/-- Where nothing that was restored is deleted, the names are the same, provided that the trees are
found when it is their turn. -/
theorem sameNames_of_keepsRestored (hwf : disk.WF) (hdry : opts.dryRun = false)
    (hdelete : deleteNodes removable opts target out disk = some disk')
    (hway : ∀ x ∈ syncTrees opts out, ∀ dir, disk.readDir target x.1 = .dir dir →
      ∀ way entry, way <+: x.1 → disk.entryAt target way = some entry →
        entry <+: dir ∨ (disk'.lookup entry).isSome)
    (hkeeps : KeepsRestored load filter root target stripPrefix disk disk') :
    SameNames load filter root target stripPrefix disk (syncTrees opts out) := by
  intro path place hrestored hentry x hx dir hread name hpre
  by_contra hname
  have hplace : disk'.lookup place ≠ none := by
    obtain ⟨-, -, -, -, -, -, hsome⟩ := disk'.of_entryAt (hkeeps.present path place hrestored hentry)
    exact Option.isSome_iff_ne_none.mp hsome
  refine hplace (deleteTrees_deletes hwf hdry hdelete hx ?_ hname hpre)
  intro disk₁ h₁ h₂
  have hkept : ∀ entry, entry <+: place ∨ (disk'.lookup entry).isSome →
      disk₁.lookup entry = disk.lookup entry := by
    intro entry hor
    rcases hor with hle | hsome
    · refine h₁.keeps_above hle ?_
      rw [← h₂.keeps_above (List.prefix_refl place) hplace]
      exact hplace
    · have hne := Option.isSome_iff_ne_none.mp hsome
      refine h₁.keeps_above (List.prefix_refl entry) ?_
      rw [← h₂.keeps_above (List.prefix_refl entry) hne]
      exact hne
  have hdir : dir <+: place := (List.prefix_append dir _).trans hpre
  refine h₁.readDir_of_kept hread (hkept dir (Or.inl hdir)) fun way entry hle hway' => ?_
  exact hkept entry ((hway x hx dir hread way entry hle hway').imp_left fun h => h.trans hdir)

end Walk

section Sample

/-- The component `a`, the component `x`, and a target directory. -/
def sampleA : Component := .normal [0x61]

def sampleX : Component := .normal [0x78]

def sampleTarget : Path := [.rootDir, .normal [0x74]]

/-- A directory `a` with the tree. -/
def sampleDir (tree : ID) : Node := { name := "a", nodeType := .directory, tree := some tree }

/-- The trees of a snapshot with the one file `a/a/a/x`. -/
def chainLoad (id : ID) : Except StreamError (List Node) :=
  if id = 1 then .ok [sampleDir 2]
  else if id = 2 then .ok [sampleDir 3]
  else if id = 3 then .ok [sampleDir 4]
  else if id = 4 then .ok [{ name := "x", blobs := some [] }]
  else .error (.other "")

/-- The filter of the include path `a/a`. -/
def chainFilter : PathFilter where
  allow := fun path => [sampleA, sampleA] <+: path || path <+: [sampleA, sampleA]
  closed := by
    intro path path' hle hallow
    rw [Bool.or_eq_true, decide_eq_true_eq, decide_eq_true_eq] at hallow ⊢
    rcases hallow with hbelow | habove
    · exact (List.prefix_or_prefix_of_prefix hle hbelow).symm
    · exact Or.inr (hle.trans habove)

def chainOpts : SyncOpts := ⟨some [[sampleA, sampleA]], false, false⟩

/-- The local files with the paths, all directories but the last two. -/
def chainDisk (extra : Path) (file : Path) (dirs : List Path) : LocalTree :=
  dirs.foldl (fun disk p => disk.insert p .dir)
    ((((∅ : LocalTree).insert extra .file).insert file .file))

theorem storedTree_chain : StoredTree chainLoad 1 := by
  have hleaf : StoredTree chainLoad 4 := by
    refine .mk rfl (List.pairwise_singleton _ _) ?_ ?_
    · rw [List.forall_mem_singleton]
      decide
    · rw [List.forall_mem_singleton]
      exact fun sub hsub => by cases hsub
  have hstep : ∀ id sub, chainLoad id = .ok [sampleDir sub] → StoredTree chainLoad sub →
      StoredTree chainLoad id := by
    intro id sub hload hsub
    have hnormal : SingleNormal (sampleDir 2).nameBytes := by decide
    refine .mk hload (List.pairwise_singleton _ _) ?_ ?_
    · rw [List.forall_mem_singleton]
      exact hnormal
    · rw [List.forall_mem_singleton]
      rintro sub' ⟨⟩
      exact hsub
  exact hstep 1 2 rfl (hstep 2 3 rfl (hstep 3 4 rfl hleaf))

theorem inTree_chain : InTree chainLoad 1 [sampleA, sampleA, sampleA, sampleX]
    { name := "x", blobs := some [] } :=
  ⟨[sampleDir 2], rfl, .under List.mem_cons_self rfl rfl (.under List.mem_cons_self rfl rfl
    (.under List.mem_cons_self rfl rfl (.entry List.mem_cons_self)))⟩

theorem treeWalk_chain : TreeWalk chainLoad chainFilter [([], 1)]
    [([], [sampleDir 2]), ([sampleA], [sampleDir 3]), ([sampleA, sampleA], [sampleDir 4]),
      ([sampleA, sampleA, sampleA], [{ name := "x", blobs := some [] }])] :=
  .visit rfl rfl (.visit rfl rfl (.visit rfl rfl (.visit rfl rfl .nil)))

/-- It is enough to look at the entries and what is above them. -/
theorem LocalTree.wf_of_toList {disk : LocalTree}
    (h : ∀ e ∈ Table.toList disk, ∀ p ∈ e.1.inits, p ≠ [] → p ≠ e.1 → disk.lookup p = some .dir) :
    disk.WF := fun path kind hlook above hne habove =>
  h (path, kind) (Table.mem_toList.mpr hlook) above ((List.mem_inits _ _).mpr habove.1) hne habove.2

/-- What `restore --include a/a --strip-prefix` leaves: the directories `a` and `a/a` and the file
`a/a/x`. -/
def strippedDisk : LocalTree :=
  chainDisk (sampleTarget ++ [sampleX]) (sampleTarget ++ [sampleA, sampleA, sampleX])
    [[.rootDir], sampleTarget, sampleTarget ++ [sampleA], sampleTarget ++ [sampleA, sampleA]]

/-- What a restore without a strip prefix leaves, and the file `a/a/x` that was there before. -/
def plainDisk : LocalTree :=
  chainDisk (sampleTarget ++ [sampleA, sampleA, sampleX])
    (sampleTarget ++ [sampleA, sampleA, sampleA, sampleX])
    [[.rootDir], sampleTarget, sampleTarget ++ [sampleA], sampleTarget ++ [sampleA, sampleA],
      sampleTarget ++ [sampleA, sampleA, sampleA]]

end Sample

end Mapache
