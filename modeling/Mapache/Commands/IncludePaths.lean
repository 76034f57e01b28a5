import Mathlib.Data.List.Destutter
import Mathlib.Data.List.Lex
import Mapache.Commands.Amend
import Mapache.Fs.Filter

/-!
# Include paths of a restore

`expand_include_paths` of `fs/filter.rs`, and the call of it in `commands/cmd_restore.rs`. An
include without a wildcard stays as it is, and one with a wildcard stands for the files of a tree
that match.

Given the ID of a stored tree the expansion is what it is for (`expandIncludePaths_spec`), up to
patterns that are too long for the matcher. `restore` gives it the ID of the snapshot, which is that
of a snapshot file, in place of the ID of the snapshot's tree (`restoreIncludes_exact_iff`).
-/

set_option autoImplicit false

namespace Mapache

open Lib Mapache.Filter

/-! ## Paths of strings -/

/-- `is_glob`, on the bytes. -/
def isGlob (pathStr : Bytes) : Bool := pathStr.any fun c => c = starByte ∨ c = questionByte

/-- The components of `Path::new`: a dot counts at the start of a relative path only. -/
def parsePath (s : Bytes) : Path :=
  if s.head? = some 0x2f then .rootDir :: (nameParts s).map .normal
  else
    (if (s.splitOnP fun byte => byte = 0x2f).head? = some [0x2e] then [.normal [0x2e]] else []) ++
      (nameParts s).map .normal

/-- The place of a component in the order of `std::path::Component`: a root comes before a dot, then
two dots, then the names by their bytes. -/
def componentKey : Component → List Nat
  | .rootDir => [0]
  | .normal name =>
    (if name = [0x2e] then 1 else if name = [0x2e, 0x2e] then 2 else 3) :: name.map UInt8.toNat

/-- The order of `PathBuf`. -/
def PathOrd (a b : Path) : Prop := a.map componentKey ≤ b.map componentKey

instance : DecidableRel PathOrd := fun _ _ => inferInstanceAs (Decidable (_ ≤ _))

/-- `sort` and `dedup`. -/
def sortDedup (paths : List Path) : List Path := (paths.insertionSort PathOrd).destutter (· ≠ ·)

/-! ## The expansion -/

section Definitions

variable (load : ID → Except StreamError (List Node))

/-- The loop over the nodes of the tree. The fuel bounds their number. -/
def expandLoop (filter : Mapache.PathFilter) (rules : List GlobRule) :
    Nat → List (Path × Node) → List Path → Option (Except StreamError (List Path))
  | 0, _, _ => none
  | fuel + 1, stack, fixedIncludes =>
    match SerializedNodeStream.next load filter stack with
    | none => some (.ok fixedIncludes)
    | some (.error e, _) => some (.error e)
    | some (.ok (_, none), _) => some (.error (.other "unreadable node"))
    | some (.ok (path, some streamNode), stack) =>
      if streamNode.node.isFile && rules.any fun g => g.isStrictMatch path then
        expandLoop filter rules fuel stack (fixedIncludes ++ [path])
      else expandLoop filter rules fuel stack fixedIncludes

/-- `expand_include_paths`. -/
def expandIncludePaths (fuel : Nat) (treeId : ID) (includes : Option (List Bytes))
    (excludes : Option (List Path)) : Option (Except StreamError (Option (List Path))) :=
  match includes with
  | none => some (.ok none)
  | some includes =>
    let fixedIncludes := (includes.filter fun path => !isGlob path).map parsePath
    let includeRules := (includes.filter isGlob).map fun path => GlobRule.new (parsePath path)
    let expanded :=
      if includeRules.isEmpty then some (.ok fixedIncludes)
      else
        match SerializedNodeStream.new load (PathFilter.toPathFilter none excludes) (some treeId)
          [] with
        | .error e => some (.error e)
        | .ok stack =>
          expandLoop load (PathFilter.toPathFilter none excludes) includeRules fuel stack
            fixedIncludes
    expanded.map fun result => result.map fun paths => some (sortDedup paths)

/-- `SnapshotPair`. -/
structure SnapshotPair where
  id : ID
  snapshot : SnapshotRecord

/-- The expansion in `restore`, of the includes and excludes of the command line. -/
def restoreIncludes (fuel : Nat) (snapshotPair : SnapshotPair) (allIncludes allExcludes :
    Option (List Bytes)) : Option (Except StreamError (Option (List Path))) :=
  expandIncludePaths load fuel snapshotPair.id allIncludes (allExcludes.map fun paths =>
    paths.map parsePath)

/-- The path of a file that the tree has, that is not excluded and that some pattern matches. -/
def Selected (id : ID) (patterns : List Path) (excludes : Option (List Path)) (path : Path) : Prop :=
  ∃ node, InTree load id path node ∧ node.isFile = true ∧ ¬ Denied excludes path ∧
    ∃ p ∈ patterns, Splits (GlobRule.new p).pieces (osComponents path)

end Definitions

/-- The includes that stay as they are. -/
def literals (includes : List Bytes) : List Path := (includes.filter fun s => !isGlob s).map parsePath

/-- The patterns. -/
def patterns (includes : List Bytes) : List Path := (includes.filter isGlob).map parsePath

/-- The patterns that are short enough for the matcher of whole paths. -/
def shortPatterns (includes : List Bytes) : List Path :=
  (patterns includes).filter fun p => p.length ≤ GlobRule.maxTokensU128

/-! ## Sorting -/

section Sorting

variable {a b path : Path} {paths : List Path}

theorem componentKey_inj {c c' : Component} (h : componentKey c = componentKey c') : c = c' := by
  cases c with
  | rootDir =>
    cases c' with
    | rootDir => rfl
    | normal name =>
      have hrank := (List.cons.inj h).1
      split_ifs at hrank
  | normal name =>
    cases c' with
    | rootDir =>
      have hrank := (List.cons.inj h).1
      split_ifs at hrank
    | normal name' =>
      have hbytes := (List.cons.inj h).2
      exact congrArg Component.normal (List.map_injective_iff.mpr
        (fun _ _ => UInt8.toNat_inj.mp) hbytes)

theorem pathKey_inj (h : a.map componentKey = b.map componentKey) : a = b :=
  List.map_injective_iff.mpr (fun _ _ => componentKey_inj) h

instance : Std.Total PathOrd := ⟨fun _ _ => le_total _ _⟩

instance : IsTrans Path PathOrd := ⟨fun _ _ _ => le_trans⟩

instance : Std.Antisymm PathOrd := ⟨fun _ _ h h' => pathKey_inj (le_antisymm h h')⟩

theorem sortDedup_eq (paths : List Path) : sortDedup paths = (paths.insertionSort PathOrd).dedup :=
  (List.pairwise_insertionSort PathOrd paths).destutter_eq_dedup

theorem mem_sortDedup : path ∈ sortDedup paths ↔ path ∈ paths := by
  rw [sortDedup_eq, List.mem_dedup, List.mem_insertionSort]

/-- Sorted and without duplicates. -/
def SortedPaths (paths : List Path) : Prop := paths.Pairwise fun a b => PathOrd a b ∧ a ≠ b

theorem sortedPaths_sortDedup (paths : List Path) : SortedPaths (sortDedup paths) := by
  have hsorted := List.pairwise_insertionSort PathOrd paths
  rw [sortDedup_eq]
  exact (hsorted.sublist (List.dedup_sublist _)).and (List.nodup_dedup _)

end Sorting

/-! ## The nodes of a stored tree -/

section Items

variable {load : ID → Except StreamError (List Node)} {filter : Mapache.PathFilter} {base path : Path}
  {node found : Node} {nodes : List Node} {items : List (Path × StreamNode)} {id : ID}

/-- The items are the paths of the level that are not excluded. -/
def ItemsOf (load : ID → Except StreamError (List Node)) (filter : Mapache.PathFilter) (base : Path)
    (nodes : List Node) (items : List (Path × StreamNode)) : Prop :=
  ∀ path node, (∃ item ∈ items, item.1 = path ∧ item.2.node = node) ↔
    PathOf load base nodes path node ∧ filter.allow path = true

theorem ItemsOf.nil : ItemsOf load filter base [] [] := by
  intro path node
  refine iff_of_false (fun ⟨item, hitem, _⟩ => List.not_mem_nil hitem) fun h => ?_
  exact not_pathOf_nil h.1

/-- An excluded entry comes with nothing. -/
theorem ItemsOf.skip (h : ItemsOf load filter base nodes items)
    (hlevel : SnapshotLevel load (node :: nodes))
    (hallow : filter.allow (entryPath base node) = false) :
    ItemsOf load filter base (node :: nodes) items := by
  intro path found
  rw [h path found, hlevel.pathOf_cons]
  refine and_congr_left fun hpath => ⟨fun hbelow => Or.inr (Or.inr hbelow), ?_⟩
  rintro (⟨rfl, -⟩ | ⟨id, sub, htree, hload, hbelow⟩ | hbelow)
  · rw [hallow] at hpath
    cases hpath
  · have hsub := (hlevel.trees node List.mem_cons_self id htree).level hload
    have hentry := filter.closed (hsub.strictPrefix hbelow).1 hpath
    rw [hallow] at hentry
    cases hentry
  · exact hbelow

/-- An entry comes with what is below it. -/
theorem ItemsOf.entry {below : List (Path × StreamNode)} {count : Nat}
    (h : ItemsOf load filter base nodes items) (hlevel : SnapshotLevel load (node :: nodes))
    (hallow : filter.allow (entryPath base node) = true)
    (hbelow : ∀ path found, (∃ item ∈ below, item.1 = path ∧ item.2.node = found) ↔
      (∃ id sub, node.tree = some id ∧ load id = .ok sub ∧
        PathOf load (entryPath base node) sub path found) ∧ filter.allow path = true) :
    ItemsOf load filter base (node :: nodes) ((entryPath base node, ⟨node, count⟩) ::
      (below ++ items)) := by
  intro path found
  rw [hlevel.pathOf_cons, or_and_right, or_and_right, ← h path found, ← hbelow path found]
  simp only [List.mem_cons, List.mem_append, or_and_right, exists_or, exists_eq_left]
  refine or_congr_left ⟨fun hentry => ⟨⟨hentry.1.symm, hentry.2.symm⟩, hentry.1 ▸ hallow⟩,
    fun hentry => ?_⟩
  exact ⟨hentry.1.1.symm, hentry.1.2.symm⟩

/-- The walk over a level has the paths that are not excluded. -/
theorem FilteredWalk.itemsOf (h : FilteredWalk load filter base nodes items)
    (hlevel : SnapshotLevel load nodes) : ItemsOf load filter base nodes items := by
  induction h with
  | nil => exact .nil
  | skip hallow _ ih => exact (ih hlevel.tail).skip hlevel hallow
  | @leaf base node nodes raw hallow htree _ ih =>
    rw [← List.nil_append raw]
    refine (ih hlevel.tail).entry hlevel hallow fun path found => ?_
    rw [htree]
    simp
  | @dir base node id nodes sub below raw hallow htree hload _ _ ihbelow ih =>
    have hsub := (hlevel.trees node List.mem_cons_self id htree).level hload
    refine (ih hlevel.tail).entry hlevel hallow fun path found => ?_
    rw [ihbelow hsub path found, htree]
    simp [hload]

end Items

/-! ## The expansion of a stored tree -/

section Expand

variable {load : ID → Except StreamError (List Node)} {filter : Mapache.PathFilter} {id : ID}
  {includes : List Bytes} {excludes : Option (List Path)}
  {items : List (Path × StreamNode)}

/-- The loop takes the files that a rule matches. The induction is on the items that the stream has
left.
-/
theorem expandLoop_spec (rules : List GlobRule) (fixed : List Path) {stack : List (Path × Node)}
    {fuel : Nat}
    (h : Yields (SerializedNodeStream.next load filter) stack (items.map fun x => .ok (x.1, some x.2)))
    (hfuel : items.length < fuel) :
    ∃ paths, expandLoop load filter rules fuel stack fixed = some (.ok paths) ∧
      ∀ path, path ∈ paths ↔ path ∈ fixed ∨ ∃ item ∈ items, item.1 = path ∧
        item.2.node.isFile = true ∧ ∃ g ∈ rules, g.isStrictMatch path = true := by
  induction items generalizing stack fixed fuel with
  | nil =>
    obtain ⟨fuel, rfl⟩ := Nat.exists_eq_succ_of_ne_zero (Nat.ne_of_gt hfuel)
    cases h with
    | done hend =>
      refine ⟨fixed, by rw [expandLoop, hend], fun path => ?_⟩
      exact (or_iff_left fun ⟨item, hitem, _⟩ => List.not_mem_nil hitem).symm
  | cons item items ih =>
    obtain ⟨fuel, rfl⟩ := Nat.exists_eq_succ_of_ne_zero (Nat.ne_of_gt (Nat.zero_lt_of_lt hfuel))
    cases h with
    | item hnext hrest =>
      rw [expandLoop, hnext]
      dsimp only
      have hsplit : ∀ path, (∃ item' ∈ item :: items, item'.1 = path ∧
          item'.2.node.isFile = true ∧ ∃ g ∈ rules, g.isStrictMatch path = true) ↔
          (item.1 = path ∧ item.2.node.isFile = true ∧ ∃ g ∈ rules, g.isStrictMatch path = true) ∨
          ∃ item' ∈ items, item'.1 = path ∧ item'.2.node.isFile = true ∧
            ∃ g ∈ rules, g.isStrictMatch path = true := by
        intro path
        simp only [List.mem_cons, exists_eq_or_imp]
      split
      · rename_i htake
        rw [Bool.and_eq_true, List.any_eq_true] at htake
        obtain ⟨paths, hpaths, hmem⟩ := ih _ hrest (Nat.lt_of_succ_lt_succ hfuel)
        refine ⟨paths, hpaths, fun path => ?_⟩
        rw [hmem, hsplit, List.mem_append, List.mem_singleton, or_assoc]
        refine or_congr_right (or_congr_left ⟨?_, fun h => h.1.symm⟩)
        rintro rfl
        exact ⟨rfl, htake⟩
      · rename_i hleave
        rw [Bool.and_eq_true, List.any_eq_true] at hleave
        obtain ⟨paths, hpaths, hmem⟩ := ih _ hrest (Nat.lt_of_succ_lt_succ hfuel)
        refine ⟨paths, hpaths, fun path => ?_⟩
        rw [hmem, hsplit]
        refine or_congr_right (or_iff_right ?_).symm
        rintro ⟨rfl, hmatch⟩
        exact hleave hmatch

theorem rules_isEmpty (hglob : ∃ s ∈ includes, isGlob s = true) :
    ((includes.filter isGlob).map fun path => GlobRule.new (parsePath path)).isEmpty = false := by
  obtain ⟨s, hs, hmeta⟩ := hglob
  rw [List.isEmpty_eq_false_iff]
  exact List.ne_nil_of_mem (List.mem_map_of_mem (List.mem_filter.mpr ⟨hs, hmeta⟩))

/-- What the rules of the includes match. -/
theorem exists_rule_iff {path : Path} :
    (∃ g ∈ (includes.filter isGlob).map fun path => GlobRule.new (parsePath path),
      g.isStrictMatch path = true) ↔
      ∃ p ∈ shortPatterns includes, Splits (GlobRule.new p).pieces (osComponents path) := by
  unfold shortPatterns patterns
  simp only [List.mem_map, List.mem_filter, decide_eq_true_eq, exists_exists_and_eq_and,
    GlobRule.isStrictMatch_iff]
  constructor
  · rintro ⟨s, hs, hlen, hmatch⟩
    exact ⟨parsePath s, ⟨⟨s, hs, rfl⟩, hlen⟩, hmatch⟩
  · rintro ⟨_, ⟨⟨s, hs, rfl⟩, hlen⟩, hmatch⟩
    exact ⟨s, hs, hlen, hmatch⟩

theorem toPathFilter_allow {path : Path} :
    (PathFilter.toPathFilter none excludes).allow path = true ↔ ¬ Denied excludes path := by
  refine allow_iff.trans (and_iff_left fun paths hpaths => ?_)
  cases hpaths

/-- **The expansion of a stored tree**: the literal includes and the files that a pattern of at most
127 components matches, sorted and without duplicates. -/
theorem expandIncludePaths_spec (htree : SnapshotTree load id)
    (hglob : ∃ s ∈ includes, isGlob s = true) :
    ∃ rounds, ∀ fuel, rounds ≤ fuel → ∃ paths,
      expandIncludePaths load fuel id (some includes) excludes = some (.ok (some paths)) ∧
      SortedPaths paths ∧ ∀ path, path ∈ paths ↔ path ∈ literals includes ∨
        Selected load id (shortPatterns includes) excludes path := by
  obtain ⟨nodes, items, stack, hload, hstack, hstream, hwalk⟩ :=
    htree.exists_stream (PathFilter.toPathFilter none excludes) []
  have hitems := hwalk.itemsOf (htree.level hload)
  refine ⟨items.length + 1, fun fuel hfuel => ?_⟩
  obtain ⟨paths, hpaths, hmem⟩ := expandLoop_spec
    ((includes.filter isGlob).map fun path => GlobRule.new (parsePath path)) (literals includes)
    hstream hfuel
  refine ⟨sortDedup paths, ?_, sortedPaths_sortDedup paths, fun path => ?_⟩
  · rw [expandIncludePaths]
    rw [rules_isEmpty hglob, if_neg Bool.false_ne_true, hstack]
    dsimp only
    rw [← literals, hpaths]
    rfl
  · rw [mem_sortDedup, hmem, exists_rule_iff]
    refine or_congr_right ⟨?_, ?_⟩
    · rintro ⟨item, hitem, rfl, hfile, hmatch⟩
      obtain ⟨hpath, hallow⟩ := (hitems item.1 item.2.node).mp ⟨item, hitem, rfl, rfl⟩
      exact ⟨item.2.node, ⟨nodes, hload, hpath⟩, hfile, toPathFilter_allow.mp hallow, hmatch⟩
    · rintro ⟨node, ⟨nodes', hload', hpath⟩, hfile, hdenied, hmatch⟩
      rw [hload] at hload'
      cases hload'
      obtain ⟨item, hitem, rfl, rfl⟩ := (hitems path node).mpr ⟨hpath, toPathFilter_allow.mpr hdenied⟩
      exact ⟨item, hitem, rfl, hfile, hmatch⟩

/-- An expansion that returns paths has loaded the tree. -/
theorem exists_load_of_expand {fuel : Nat} {paths : Option (List Path)}
    (hglob : ∃ s ∈ includes, isGlob s = true)
    (h : expandIncludePaths load fuel id (some includes) excludes = some (.ok paths)) :
    ∃ nodes, load id = .ok nodes := by
  cases hload : load id with
  | ok nodes => exact ⟨nodes, rfl⟩
  | error e =>
    rw [expandIncludePaths] at h
    rw [rules_isEmpty hglob, if_neg Bool.false_ne_true, SerializedNodeStream.new, hload] at h
    cases h

end Expand

/-! ## The expansion in a restore -/

section Restore

variable {load : ID → Except StreamError (List Node)} {snapshotPair : SnapshotPair}
  {includes : List Bytes} {excludes : Option (List Bytes)}

/-- What the expansion of a restore is for: the literal includes and the files of the snapshot's
tree that are not excluded and that a pattern matches, sorted and without duplicates. -/
def ExpandsExactly (load : ID → Except StreamError (List Node)) (snapshotPair : SnapshotPair)
    (includes : List Bytes) (excludes : Option (List Bytes)) : Prop :=
  ∃ rounds, ∀ fuel, rounds ≤ fuel → ∃ paths,
    restoreIncludes load fuel snapshotPair (some includes) excludes = some (.ok (some paths)) ∧
    SortedPaths paths ∧ ∀ path, path ∈ paths ↔ path ∈ literals includes ∨
      Selected load snapshotPair.snapshot.tree (patterns includes)
        (excludes.map fun paths => paths.map parsePath) path

/-- **When the expansion of a restore is exact**: if and only if a tree is stored under the ID of
the snapshot itself, in which, besides the literal includes, the patterns that are short enough
select the paths that the patterns select in the tree of the snapshot. -/
theorem restoreIncludes_exact_iff (hstored : ∀ id nodes, load id = .ok nodes → SnapshotTree load id)
    (hglob : ∃ s ∈ includes, isGlob s = true) :
    ExpandsExactly load snapshotPair includes excludes ↔
      (∃ nodes, load snapshotPair.id = .ok nodes) ∧ ∀ path, path ∉ literals includes →
        (Selected load snapshotPair.id (shortPatterns includes)
            (excludes.map fun paths => paths.map parsePath) path ↔
          Selected load snapshotPair.snapshot.tree (patterns includes)
            (excludes.map fun paths => paths.map parsePath) path) := by
  constructor
  · rintro ⟨rounds, h⟩
    obtain ⟨paths, hpaths, -, hmem⟩ := h rounds (le_refl _)
    obtain ⟨nodes, hload⟩ := exists_load_of_expand hglob hpaths
    refine ⟨⟨nodes, hload⟩, fun path hnew => ?_⟩
    obtain ⟨rounds', h'⟩ := expandIncludePaths_spec (hstored _ _ hload) hglob
    -- with fuel for both they return the same paths
    obtain ⟨paths₁, hpaths₁, -, hmem₁⟩ := h (max rounds rounds') (le_max_left _ _)
    obtain ⟨paths₂, hpaths₂, -, hmem₂⟩ := h' (max rounds rounds') (le_max_right _ _)
    rw [restoreIncludes, hpaths₂] at hpaths₁
    cases hpaths₁
    have hiff := (hmem₂ path).symm.trans (hmem₁ path)
    rwa [or_iff_right hnew, or_iff_right hnew] at hiff
  · rintro ⟨⟨nodes, hload⟩, hselected⟩
    obtain ⟨rounds, h⟩ := expandIncludePaths_spec (hstored _ _ hload) hglob
    refine ⟨rounds, fun fuel hfuel => ?_⟩
    obtain ⟨paths, hpaths, hsorted, hmem⟩ := h fuel hfuel
    refine ⟨paths, hpaths, hsorted, fun path => (hmem path).trans ?_⟩
    by_cases hliteral : path ∈ literals includes
    · exact iff_of_true (Or.inl hliteral) (Or.inl hliteral)
    · exact or_congr_right (hselected path hliteral)

end Restore

section Sample

/-- A repository whose only tree, of ID 0, has the file `x`. -/
def fileTrees : List (List Node) := [[{ name := "x", blobs := some [] }]]

/-- A snapshot of this tree, under an ID. -/
def filePair (id : ID) : SnapshotPair := ⟨id, { twoSources with tree := 0 }⟩

theorem stored_fileTrees : ∀ id nodes, loadList fileTrees id = .ok nodes →
    SnapshotTree (loadList fileTrees) id := by
  intro id nodes h
  have hzero : id.val = 0 := by
    by_contra hne
    rw [loadList, List.getElem?_eq_none (Nat.one_le_iff_ne_zero.mpr hne)] at h
    cases h
  rw [show id = 0 from Fin.ext hzero]
  exact snapshotTree_file rfl (by decide +kernel) rfl rfl

/-- The expansion would be exact if the ID of the snapshot were that of its tree. -/
theorem restoreIncludes_same : ExpandsExactly (loadList fileTrees) (filePair 0) [[starByte]] none := by
  refine (restoreIncludes_exact_iff stored_fileTrees ⟨[starByte], List.mem_singleton_self _, rfl⟩).mpr
    ⟨⟨_, rfl⟩, fun path _ => ?_⟩
  rw [show shortPatterns [[starByte]] = patterns [[starByte]] by decide]
  exact Iff.rfl

/-- **The include `*` is an error**, though the tree of the snapshot has a file: a tree is looked
for under the ID of the snapshot. -/
theorem restoreIncludes_fails :
    (∀ fuel, restoreIncludes (loadList fileTrees) fuel (filePair 5) (some [[starByte]]) none =
      some (.error (.rootTree 5 (.internal "no such tree")))) ∧
    Selected (loadList fileTrees) 0 (patterns [[starByte]]) none [.normal [0x78]] ∧
    ¬ ExpandsExactly (loadList fileTrees) (filePair 5) [[starByte]] none := by
  have hfails : ∀ fuel,
      restoreIncludes (loadList fileTrees) fuel (filePair 5) (some [[starByte]]) none =
      some (.error (.rootTree 5 (.internal "no such tree"))) := fun fuel => rfl
  refine ⟨hfails, ?_, ?_⟩
  · have hpath : joinName [] (Node.nameBytes { name := "x", blobs := some [] }) = [.normal [0x78]] := by
      decide +kernel
    refine ⟨{ name := "x", blobs := some [] }, ⟨_, rfl, hpath ▸ .entry List.mem_cons_self⟩, rfl, ?_,
      [.normal [starByte]], by decide, ?_⟩
    · rintro ⟨p, hp, -⟩
      cases hp
    · exact ((GlobRule.isStrictMatch_iff _ _).mp (by decide)).2
  · rintro ⟨rounds, h⟩
    obtain ⟨paths, hpaths, -⟩ := h rounds (le_refl _)
    rw [hfails] at hpaths
    cases hpaths

end Sample

end Mapache
