import Mapache.Archiver.Sources

/-!
# Entries that cannot be read

The scan of a directory reads the metadata of all its entries in one collection, so that one entry
that cannot be read makes the whole scan fail: the directory is announced without children and an
error is reported. `FileSystem.visible` is the file system as such a walk sees it, with an empty
directory in the place of each one whose scan fails. No read of a walk over it fails, and the two
walks emit the same nodes (`readable_walkLoop_visible`).

So an unreadable entry costs only itself if and only if no directory below the sources has an entry
that can be read beside it (`unreadable_entry_costs_itself_iff`).
-/

set_option autoImplicit false

namespace Mapache

open Lib

namespace FileSystem

variable (fs : FileSystem) (filter : PathFilter)

/-- The entries that a walk sees in a directory: none where the scan fails. -/
def visibleEntries (path : Path) : Option (List Bytes) :=
  if path = [] then none
  else
    match fs.scan filter path with
    | some _ => fs.readDir path
    | none => some []

theorem visibleEntries_eq {path : Path} {names : List Bytes} {name : Bytes}
    (h : fs.visibleEntries filter path = some names) (hname : name ∈ names) :
    fs.readDir path = some names ∧ ∃ children, fs.scan filter path = some children := by
  unfold visibleEntries at h
  split at h
  · cases h
  · split at h
    · rename_i children hscan
      exact ⟨h, children, hscan⟩
    · cases h
      cases hname

/-- The file system as a walk sees it. -/
def visible : FileSystem where
  stat := fs.stat
  readDir := fs.visibleEntries filter
  nodup := by
    intro path names h
    cases names with
    | nil => exact List.nodup_nil
    | cons name names => exact fs.nodup (fs.visibleEntries_eq filter h List.mem_cons_self).1
  named := fs.named
  bare := fs.bare
  height := fs.height
  finite := by
    intro path names h hne
    obtain ⟨name, hname⟩ := List.exists_mem_of_ne_nil names hne
    exact fs.finite (fs.visibleEntries_eq filter h hname).1 hne
  empty := ⟨fs.empty.1, if_pos rfl⟩

section Visible

variable {fs filter} {path top : Path} {children : List (Bytes × Node)}

/-- A scan that succeeds finds the metadata of every entry that is not excluded. -/
theorem stat_of_scan {names : List Bytes} {name : Bytes} (hread : fs.readDir path = some names)
    (hname : name ∈ names) (hallow : filter.allow (path ++ [.normal name]) = true)
    (h : fs.scan filter path = some children) : ∃ node,
    fs.stat (path ++ [.normal name]) = some node := by
  rw [scan, hread] at h
  dsimp only at h
  have hmem : name ∈ (names.filter fun name => filter.allow (path ++ [.normal name])).insertionSort
      (· ≤ ·) := (List.mem_insertionSort _).mpr (List.mem_filter.mpr ⟨hname, hallow⟩)
  generalize (names.filter fun name => filter.allow (path ++ [.normal name])).insertionSort
    (· ≤ ·) = l at h hmem
  induction l generalizing children with
  | nil => cases hmem
  | cons a l ih =>
    rw [List.mapM_cons] at h
    obtain ⟨c, hc, h⟩ := Option.bind_eq_some_iff.mp h
    obtain ⟨cs, hcs, -⟩ := Option.bind_eq_some_iff.mp h
    rcases List.mem_cons.mp hmem with rfl | hmem
    · obtain ⟨node, hnode, -⟩ := Option.map_eq_some_iff.mp hc
      exact ⟨node, hnode⟩
    · exact ih hcs hmem

/-- A directory whose listed entries can all be read is scanned. -/
theorem exists_scan {names : List Bytes} (hread : fs.readDir path = some names)
    (h : ∀ name ∈ names, filter.allow (path ++ [.normal name]) = true →
      ∃ node, fs.stat (path ++ [.normal name]) = some node) :
    ∃ children, fs.scan filter path = some children := by
  have hstats : ∀ name ∈ (names.filter fun name =>
      filter.allow (path ++ [.normal name])).insertionSort (· ≤ ·),
      ∃ node, fs.stat (path ++ [.normal name]) = some node := by
    intro name hname
    obtain ⟨hmem, hallow⟩ := List.mem_filter.mp ((List.mem_insertionSort _).mp hname)
    exact h name hmem hallow
  obtain ⟨children, heq, -, -⟩ := exists_mapM (fun name => fs.stat (path ++ [.normal name])) hstats
  exact ⟨children, by rw [scan, hread]; exact heq⟩

theorem scan_visible (hne : path ≠ []) :
    (fs.visible filter).scan filter path = some ((fs.scan filter path).getD []) := by
  have hentries : (fs.visible filter).readDir path = match fs.scan filter path with
      | some _ => fs.readDir path
      | none => some [] := if_neg hne
  cases hscan : fs.scan filter path with
  | none =>
    rw [hscan] at hentries
    rw [scan, hentries]
    rfl
  | some children =>
    rw [hscan] at hentries
    have hstat : (fs.visible filter).stat = fs.stat := rfl
    rw [scan, hentries, hstat, ← scan, hscan, Option.getD_some]

/-- The nodes among the items of a stream. -/
def nodesOf (items : List (Path × Option StreamNode)) : List (Path × Option StreamNode) :=
  items.filter fun i => i.2.isSome

/-- **The walk sees the visible file system**: but for errors both walks emit the same. -/
theorem nodesOf_walkLoop_visible (fuel : Nat) (inters : List (Path × Nat))
    (stack : List (Path × Node)) :
    nodesOf (fs.walkLoop filter fuel inters stack) =
      nodesOf ((fs.visible filter).walkLoop filter fuel inters stack) := by
  induction fuel generalizing inters stack with
  | zero => rfl
  | succ fuel ih =>
    rw [walkLoop.eq_def, walkLoop.eq_def]
    dsimp only
    split
    · cases inters with
      | nil => rfl
      | cons e inters =>
        dsimp only
        split
        · have hstat : (fs.visible filter).stat = fs.stat := rfl
          rw [hstat, nodesOf, nodesOf, List.filter_cons, List.filter_cons]
          have hrest := ih inters stack
          rw [nodesOf, nodesOf] at hrest
          rw [hrest]
        · exact ih inters stack
    · cases stack with
      | nil => rfl
      | cons e stack =>
        obtain ⟨path, node⟩ := e
        dsimp only
        split
        · split
          · by_cases hne : path = []
            · -- the empty path has no entries in either of them
              have hnone : fs.scan filter path = none := by
                rw [hne, scan, fs.empty.2]
              have hnone' : (fs.visible filter).scan filter path = none := by
                rw [hne, scan, (fs.visible filter).empty.2]
              rw [hnone, hnone']
              exact congrArg (List.cons (path, some _)) (ih inters stack)
            · rw [scan_visible hne]
              cases hscan : fs.scan filter path with
              | none => exact congrArg (List.cons (path, some _)) (ih inters stack)
              | some children =>
                rw [Option.getD_some]
                exact congrArg (List.cons (path, some _)) (ih inters _)
          · exact congrArg (List.cons (path, some _)) (ih inters stack)
        · exact ih inters stack

/-- What a walk sees is there. -/
theorem Below.of_visible (h : (fs.visible filter).Below filter top path) :
    fs.Below filter top path := by
  induction h with
  | top => exact .top
  | entry _ hstat hdir hread hname hallow ih =>
    exact .entry ih hstat hdir (fs.visibleEntries_eq filter hread hname).1 hname hallow

/-- No read of a walk over the visible file system fails. -/
theorem readable_visible {node : Node} (hne : top ≠ []) (hstat : fs.stat top = some node) :
    (fs.visible filter).Readable filter top := by
  constructor
  · intro path h
    cases h with
    | top => exact ⟨node, hstat⟩
    | @entry dir _ _ name _ _ _ hread hname hallow =>
      obtain ⟨hentries, children, hscan⟩ := fs.visibleEntries_eq filter hread hname
      show ∃ node, fs.stat (dir ++ [.normal name]) = some node
      exact stat_of_scan hentries hname hallow hscan
  · intro path node' h _ _
    have hpath : path ≠ [] := by
      rintro rfl
      exact hne (List.prefix_nil.mp h.le)
    have hentries : (fs.visible filter).readDir path = match fs.scan filter path with
        | some _ => fs.readDir path
        | none => some [] := if_neg hpath
    rw [hentries]
    cases hscan : fs.scan filter path with
    | none => exact ⟨[], rfl⟩
    | some children =>
      rw [scan] at hscan
      split at hscan
      · cases hscan
      · rename_i names hread
        exact ⟨names, hread⟩

end Visible

end FileSystem

/-! ## What an unreadable entry costs -/

/-- No directory below the sources has both an entry whose metadata can be read and one whose
metadata cannot, of those that are not excluded. -/
def AllOrNone (fs : FileSystem) (filter : PathFilter) (sources : List Path) : Prop :=
  ∀ src ∈ sources, ∀ dir node names, fs.Below filter src dir → fs.stat dir = some node →
    node.isDir = true → fs.readDir dir = some names → ∀ a ∈ names, ∀ b ∈ names,
      filter.allow (dir ++ [.normal a]) = true → filter.allow (dir ++ [.normal b]) = true →
      fs.stat (dir ++ [.normal a]) = none → fs.stat (dir ++ [.normal b]) = none

/-- The stream has a node for every path below the sources that is not excluded, can be read and
does not lie below one that cannot. -/
def EmitsReadable (fs : FileSystem) (filter : PathFilter) (sources : List Path)
    (emitted : List (Path × Option StreamNode)) : Prop :=
  ∀ src ∈ sources, ∀ path found, fs.Below filter src path → fs.stat path = some found →
    ∃ next, (path, some next) ∈ emitted

section

variable {env : TreeEnv} {fs : FileSystem} {filter : PathFilter} {paths sources : List Path}
  {src path : Path}

/-- Where directories can be read whole or not at all, a walk sees everything that can be read. -/
theorem AllOrNone.visible (h : AllOrNone fs filter sources) (hsrc : src ∈ sources) (hne : src ≠ [])
    {found : Node} (hpath : fs.Below filter src path) (hstat : fs.stat path = some found) :
    (fs.visible filter).Below filter src path := by
  induction hpath generalizing found with
  | top => exact .top
  | @entry dir node names name hdirBelow hdirStat hdir hread hname hallow ih =>
    obtain ⟨children, hscan⟩ := FileSystem.exists_scan hread fun a ha hallowa => by
      by_contra hnone
      have hfails : fs.stat (dir ++ [.normal a]) = none :=
        Option.eq_none_iff_forall_ne_some.mpr fun n hn => hnone ⟨n, hn⟩
      have hgone := h src hsrc dir node names hdirBelow hdirStat hdir hread a ha name hname hallowa
        hallow hfails
      rw [hgone] at hstat
      cases hstat
    have hdirNe : dir ≠ [] := by
      rintro rfl
      exact hne (List.prefix_nil.mp hdirBelow.le)
    have hentries : (fs.visible filter).readDir dir = some names := by
      show fs.visibleEntries filter dir = some names
      rw [FileSystem.visibleEntries, if_neg hdirNe, hscan]
      exact hread
    exact .entry (ih hdirStat) hdirStat hdir hentries hname hallow

/-- A walk sees nothing in a directory with an entry that cannot be read. -/
theorem not_visible_beside {dir : Path} {names : List Bytes} {a b : Bytes}
    (hread : fs.readDir dir = some names) (ha : a ∈ names)
    (hallow : filter.allow (dir ++ [Component.normal a]) = true) (hfails : fs.stat (dir ++ [Component.normal a]) = none)
    (hlt : StrictPrefix src (dir ++ [Component.normal b])) :
    ¬ (fs.visible filter).Below filter src (dir ++ [Component.normal b]) := by
  generalize hq : dir ++ [Component.normal b] = q at hlt
  intro h
  cases h with
  | top => exact hlt.2 rfl
  | @entry dir' _ _ name _ _ _ hread' hname' _ =>
    obtain ⟨rfl, -⟩ := List.append_inj' hq rfl
    obtain ⟨hentries, children, hscan⟩ := fs.visibleEntries_eq filter hread' hname'
    obtain ⟨node, hnode⟩ := FileSystem.stat_of_scan hread ha hallow hscan
    rw [hfails] at hnode
    cases hnode

/-- The visible file system is as regular as the whole one. -/
theorem Regular.visible (h : Regular fs filter sources) :
    Regular (fs.visible filter) filter sources where
  slash := h.slash
  not_nested := h.not_nested
  isDir := h.isDir
  names p q hp hq := by
    have hreq : ∀ {p}, Requested (fs.visible filter) filter sources p → Requested fs filter sources
        p :=
      fun hp => hp.imp id fun ⟨src, hsrc, hbelow⟩ => ⟨src, hsrc, hbelow.of_visible⟩
    exact h.names p q (hreq hp) (hreq hq)

/-- An error among the items is only reported. -/
theorem processes_nodesOf {emitted : List (Path × Option StreamNode)}
    {items : List (Path × StreamNode)} :
    Processes emitted items ↔ Processes (FileSystem.nodesOf emitted) items := by
  induction emitted generalizing items with
  | nil => exact Iff.rfl
  | cons e emitted ih =>
    obtain ⟨path, next⟩ := e
    cases next with
    | none =>
      have hdrop : FileSystem.nodesOf ((path, none) :: emitted) = FileSystem.nodesOf emitted := rfl
      rw [hdrop, ← ih]
      constructor
      · rintro (_ | h)
        exact h
      · exact .skip
    | some next =>
      have hkeep : FileSystem.nodesOf ((path, some next) :: emitted) =
          (path, some next) :: FileSystem.nodesOf emitted := rfl
      rw [hkeep]
      constructor
      · rintro (_ | _ | ⟨hitem, h⟩)
        exact .item hitem (ih.mp h)
      · rintro (_ | _ | ⟨hitem, h⟩)
        exact .item hitem (ih.mpr h)

theorem Stores.visible {fuel : Nat} {result : Option ID} (h : Stores env fs filter paths fuel result) :
    Stores env (fs.visible filter) filter paths fuel result := by
  obtain ⟨inters, stack, items, order, hfrom, hproc, hperm, hresult⟩ := h
  refine ⟨inters, stack, items, order, hfrom, ?_, hperm, hresult⟩
  rw [processes_nodesOf, FileSystem.nodesOf_walkLoop_visible] at hproc
  exact processes_nodesOf.mpr hproc

end

/-- **An unreadable entry costs only itself** exactly where no directory has an entry that can be
read beside it. The sources and the directories on the way to them can be read. Then the stream has
a node for everything else if and only if that holds; and if it holds, a successful run stores all
of it. -/
theorem unreadable_entry_costs_itself_iff (env : TreeEnv) (fs : FileSystem) (filter : PathFilter)
    (paths : List Path) (habs : ∀ path ∈ paths, Absolute path)
    (hstat : ∀ src ∈ sourcePaths filter paths, ∃ node, fs.stat src = some node)
    (habove : ∀ dir, IsIntermediate (calculateLcp (sourcePaths filter paths))
      (sourcePaths filter paths) dir → ∃ node, fs.stat dir = some node)
    (hreg : Regular fs filter (sourcePaths filter paths)) :
    ∃ fuel₀, ∀ fuel, fuel₀ ≤ fuel →
      ∃ inters stack, fs.fromPaths filter (sourcePaths filter paths) = some (inters, stack) ∧
        (EmitsReadable fs filter (sourcePaths filter paths) (fs.walkLoop filter fuel inters stack) ↔
          AllOrNone fs filter (sourcePaths filter paths)) ∧
        (AllOrNone fs filter (sourcePaths filter paths) →
          ∀ result, Stores env fs filter paths fuel result →
            ∃ id, result = some id ∧ ContainsSources env fs filter (sourcePaths filter paths) id) := by
  have hbelow := hreg.below_sources habs
  have hread : NoReadFails (fs.visible filter) filter (sourcePaths filter paths) := by
    refine ⟨fun src hsrc => ?_, habove⟩
    obtain ⟨node, hnode⟩ := hstat src hsrc
    exact FileSystem.readable_visible (hbelow src hsrc).2.ne_nil hnode
  obtain ⟨inters, stack, hfrom, hstarted⟩ := exists_started rfl hbelow hread hreg.slash
  refine ⟨((fs.visible filter).pendingItems filter inters stack).length + 1, fun fuel hfuel =>
    ⟨inters, stack, hfrom, ?_, fun hall result h => ?_⟩⟩
  · -- the nodes of the stream are those of the visible file system
    have hperm := FileSystem.walkLoop_perm hstarted.allowed hstarted.ready hfuel
    have hmem : ∀ path next, (path, some next) ∈ fs.walkLoop filter fuel inters stack ↔
        (path, some next) ∈ (fs.visible filter).pendingItems filter inters stack := by
      intro path next
      have hnodes : ∀ items : List (Path × Option StreamNode), (path, some next) ∈ items ↔
          (path, some next) ∈ FileSystem.nodesOf items := fun items => by
        rw [FileSystem.nodesOf, List.mem_filter]
        exact ⟨fun h => ⟨h, rfl⟩, fun h => h.1⟩
      rw [hnodes, FileSystem.nodesOf_walkLoop_visible, ← hnodes, hperm.mem_iff]
    constructor
    · intro hemits src hsrc dir node names hdirBelow hdirStat hdir hnames a ha b hb hallowa hallowb
        hfails
      by_contra hb'
      obtain ⟨found, hfound⟩ := Option.ne_none_iff_exists'.mp hb'
      have hentry : fs.Below filter src (dir ++ [.normal b]) :=
        .entry hdirBelow hdirStat hdir hnames hb hallowb
      obtain ⟨next, hnext⟩ := hemits src hsrc _ found hentry hfound
      obtain ⟨_, _, _, hright⟩ := hstarted.begun.mem_pendingItems hbelow hread ((hmem _ _).mp hnext)
      have hle : src <+: dir ++ [.normal b] := hentry.le
      rcases hright with ⟨hinter, -⟩ | ⟨src', hsrc', hseen, -⟩
      · exact hreg.notNested.not_intermediate hsrc hle hinter
      · have hsame := hreg.notNested.source_unique hsrc hsrc' hle hseen.le
        subst hsame
        exact not_visible_beside hnames ha hallowa hfails
          (.of_length_lt hle (by
            have hlen := hdirBelow.le.length_le
            rw [List.length_append, List.length_singleton]
            omega)) hseen
    · intro hall src hsrc path found hpath hfound
      have hseen := hall.visible hsrc (hbelow src hsrc).2.ne_nil hpath hfound
      obtain ⟨e, he, hep⟩ := List.mem_map.mp (hstarted.begun.mem_of_below hsrc hseen)
      obtain ⟨next, hnext, -⟩ := hstarted.begun.mem_pendingItems hbelow hread he
      refine ⟨next, (hmem path next).mpr ?_⟩
      rw [← hep, ← hnext]
      exact he
  · obtain ⟨id, hid, hcontains⟩ := hstarted.contains hfrom hbelow hread hreg.visible hfuel h.visible
    refine ⟨id, hid, fun src hsrc path found hpath hfound => ?_⟩
    exact hcontains src hsrc path found (hall.visible hsrc (hbelow src hsrc).2.ne_nil hpath hfound)
      hfound

section Sample

/-- The directory `/d`. -/
def plainDir : Path := [.rootDir, .normal [0x64]]

/-- A file system with the directory `/d`, where only the metadata of `/d/b` can be read. -/
def dirFs (names : List Bytes) (hnames : names.Nodup) : FileSystem where
  stat path :=
    if path = plainDir then some { name := "d", nodeType := .directory }
    else if path = plainDir ++ [.normal [0x62]] then some { name := "b" }
    else none
  readDir path := if path = plainDir then some names else none
  nodup := by
    intro path names' h
    split at h
    · cases h
      exact hnames
    · cases h
  named := by
    intro path node name h hname
    split at h
    · rename_i hpath
      subst hpath
      cases h
      cases hname
      decide
    · split at h
      · rename_i hpath
        subst hpath
        cases h
        cases hname
        decide
      · cases h
  bare := by
    intro path node h
    split at h
    · cases h
      exact ⟨rfl, rfl⟩
    · split at h
      · cases h
        exact ⟨rfl, rfl⟩
      · cases h
  height := 3
  finite := by
    intro path names' h _
    split at h
    · rename_i hpath
      rw [hpath]
      decide
    · cases h
  empty := ⟨rfl, rfl⟩

/-- Two trees are written: the empty one, and the one with the empty directory `d`. -/
def dirCodec : TreeCodec where
  toVec nodes :=
    if nodes = [] then some [0]
    else if nodes = [{ name := "d", nodeType := .directory, tree := some 0 }] then some [1]
    else none
  fromSlice bytes :=
    if bytes = [0] then some [] else some [{ name := "d", nodeType := .directory, tree := some 0 }]
  fromSlice_toVec := by
    intro nodes bytes h
    split at h
    · rename_i hnodes
      cases h
      rw [hnodes]
      rfl
    · split at h
      · rename_i hnodes
        cases h
        rw [hnodes]
        rfl
      · cases h

def dirEnv : TreeEnv where
  sort := sortByKey Node.name
  perm := perm_sortByKey Node.name
  sorted := fun nodes => pairwise_sortByKey Node.name nodes
  codec := dirCodec
  fromContent := fun bytes => Fin.ofNat _ (bytes.headD 0).toNat

variable {names : List Bytes} {hnames : names.Nodup}

theorem below_dirFs {path : Path} (h : (dirFs names hnames).Below noFilter plainDir path) :
    path = plainDir ∨ ∃ name ∈ names, path = plainDir ++ [.normal name] := by
  induction h with
  | top => exact Or.inl rfl
  | @entry dir node names' name _ _ _ hread hname _ _ =>
    have hdir : (if dir = plainDir then some names else none) = some names' := hread
    split at hdir
    · rename_i heq
      cases hdir
      exact Or.inr ⟨name, hname, by rw [heq]⟩
    · cases hdir

theorem not_intermediate_dirFs (dir : Path) : ¬ IsIntermediate [.rootDir] [plainDir] dir := by
  rintro ⟨hroot, src, hsrc, hlt⟩
  rw [List.mem_singleton.mp hsrc] at hlt
  have h₁ := hroot.length_lt
  have h₂ := hlt.length_lt
  simp only [plainDir, List.length_cons, List.length_nil] at h₁ h₂
  omega

theorem regular_dirFs (h : ∀ name ∈ names, name = [0x61] ∨ name = [0x62]) :
    Regular (dirFs names hnames) noFilter [plainDir] := by
  have hreq : ∀ {p}, Requested (dirFs names hnames) noFilter [plainDir] p →
      p = plainDir ∨ p = plainDir ++ [.normal [0x61]] ∨ p = plainDir ++ [.normal [0x62]] := by
    rintro p (hinter | ⟨src, hsrc, hbelow⟩)
    · exact absurd hinter (not_intermediate_dirFs p)
    · rw [List.mem_singleton.mp hsrc] at hbelow
      rcases below_dirFs hbelow with rfl | ⟨name, hname, rfl⟩
      · exact Or.inl rfl
      · rcases h name hname with rfl | rfl
        · exact Or.inr (Or.inl rfl)
        · exact Or.inr (Or.inr rfl)
  refine ⟨by decide, by decide, fun dir _ h => absurd h (not_intermediate_dirFs dir),
    fun p q hp hq => ?_⟩
  rcases hreq hp with rfl | rfl | rfl <;> rcases hreq hq with rfl | rfl | rfl <;> decide

theorem scan_dirFs (ha : [0x61] ∈ names) : (dirFs names hnames).scan noFilter plainDir = none := by
  cases hscan : (dirFs names hnames).scan noFilter plainDir with
  | none => rfl
  | some children =>
    obtain ⟨node, hnode⟩ := FileSystem.stat_of_scan (rfl : some names = some names) ha rfl hscan
    cases hnode

theorem stores_dirFs (ha : [0x61] ∈ names) (fuel : Nat) :
    Stores dirEnv (dirFs names hnames) noFilter [plainDir] (fuel + 1) (some 1) := by
  refine ⟨[], [(plainDir, { name := "d", nodeType := .directory })],
    [(plainDir, ⟨{ name := "d", nodeType := .directory }, 0⟩)], _, rfl, ?_, .refl _, ?_⟩
  · have hwalk : (dirFs names hnames).walkLoop noFilter (fuel + 1) []
        [(plainDir, { name := "d", nodeType := .directory })] =
        (plainDir, some ⟨{ name := "d", nodeType := .directory }, 0⟩) :: (plainDir, none) ::
          (dirFs names hnames).walkLoop noFilter fuel [] [] := by
      rw [FileSystem.walkLoop.eq_def]
      simp only [FileSystem.takeIntermediate, scan_dirFs ha]
      rfl
    have hdir : Processed ⟨{ name := "d", nodeType := .directory }, 0⟩
        ⟨{ name := "d", nodeType := .directory }, 0⟩ := ⟨none, none, rfl⟩
    rw [hwalk]
    refine .item hdir (.skip ?_)
    cases fuel <;> exact .nil
  · decide

/-- Where `/d` has the unreadable entry only, nothing else is lost. -/
theorem unreadable_entry_alone : (∀ fuel, Stores dirEnv (dirFs [[0x61]] (by decide)) noFilter
      [plainDir] (fuel + 1) (some 1)) ∧
    ContainsSources dirEnv (dirFs [[0x61]] (by decide)) noFilter [plainDir] 1 := by
  refine ⟨stores_dirFs (List.mem_singleton_self _), ?_⟩
  have hall : AllOrNone (dirFs [[0x61]] (by decide)) noFilter [plainDir] := by
    intro src hsrc dir node names hbelow hstat hdir hread a ha b hb _ _ hfails
    have hnames : (if dir = plainDir then some [[0x61]] else none) = some names := hread
    split at hnames
    · cases hnames
      rw [List.mem_singleton.mp hb, ← List.mem_singleton.mp ha]
      exact hfails
    · cases hnames
  obtain ⟨fuel₀, h⟩ := unreadable_entry_costs_itself_iff dirEnv (dirFs [[0x61]] (by decide)) noFilter
    [plainDir] (fun path hpath => ⟨[[0x64]], List.mem_singleton.mp hpath⟩)
    (fun src hsrc => ⟨{ name := "d", nodeType := .directory }, by
      rw [List.mem_singleton.mp hsrc]
      rfl⟩)
    (fun dir hdir => absurd hdir (not_intermediate_dirFs dir))
    (regular_dirFs fun name hname => Or.inl (List.mem_singleton.mp hname))
  obtain ⟨inters, stack, -, -, hstored⟩ := h (fuel₀ + 1) (Nat.le_succ _)
  obtain ⟨id, hid, hcontains⟩ := hstored hall _ (stores_dirFs (List.mem_singleton_self _) fuel₀)
  cases hid
  exact hcontains

/-- **An unreadable entry costs its siblings.** The metadata of `/d/a` cannot be read, that of
`/d/b` can: the run succeeds, and the snapshot has no `/d/b`. -/
theorem unreadable_entry_costs_its_sibling :
    Regular (dirFs [[0x61], [0x62]] (by decide)) noFilter [plainDir] ∧
    (dirFs [[0x61], [0x62]] (by decide)).Below noFilter plainDir (plainDir ++ [.normal [0x62]]) ∧
    (dirFs [[0x61], [0x62]] (by decide)).stat (plainDir ++ [.normal [0x62]]) =
      some { name := "b" } ∧
    (∀ fuel, Stores dirEnv (dirFs [[0x61], [0x62]] (by decide)) noFilter [plainDir] (fuel + 1)
      (some 1)) ∧
    ∀ node, ¬ NodeAt dirEnv 1 ["d", "b"] node := by
  have hdecode : ∀ id nodes, dirEnv.Encodes id nodes →
      (id = 0 ∧ nodes = []) ∨
        (id = 1 ∧ nodes = [{ name := "d", nodeType := .directory, tree := some 0 }]) := by
    rintro id nodes ⟨bytes, hvec, hid⟩
    have hvec' : dirCodec.toVec nodes = some bytes := hvec
    unfold dirCodec at hvec'
    dsimp only at hvec'
    split at hvec'
    · rename_i hnodes
      cases hvec'
      exact Or.inl ⟨hid.symm, hnodes⟩
    · split at hvec'
      · rename_i hnodes
        cases hvec'
        exact Or.inr ⟨hid.symm, hnodes⟩
      · cases hvec'
  refine ⟨regular_dirFs fun name hname => ?_, .entry .top rfl rfl rfl (by decide) rfl, rfl,
    stores_dirFs (by decide), ?_⟩
  · rcases List.mem_cons.mp hname with rfl | hname
    · exact Or.inl rfl
    · exact Or.inr (List.mem_singleton.mp hname)
  · intro node h
    cases h with
    | inside henc hfilter hsub hinner =>
      rcases hdecode _ _ henc with ⟨hid, -⟩ | ⟨-, rfl⟩
      · cases hid
      · cases hfilter
        cases hsub
        cases hinner with
        | here henc hfilter =>
          rcases hdecode _ _ henc with ⟨-, rfl⟩ | ⟨hid, -⟩
          · cases hfilter
          · cases hid
        | inside henc hfilter _ hrest => cases hrest

end Sample

end Mapache
