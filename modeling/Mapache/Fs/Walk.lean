import Mapache.Archiver.TreeSerializer
import Mapache.Fs.Intermediate

/-!
# The file system stream

`FSNodeStream` of `fs/tree.rs`: a depth-first walk over the source paths, merged with the
intermediate directories between them and their common root. A path that cannot be read yields an
error in the place of its node; a directory one of whose entries cannot be read is announced without
children. The path filter is a parameter: all that matters here is that a path below an excluded one
is excluded.

`FileSystem.Below` says which paths lie below a source and are not excluded, and `walkLoop_perm`
that the stream emits them and the intermediate directories, each once.
-/

set_option autoImplicit false

namespace Mapache

open Lib

/-- The file system at the time of a run. -/
structure FileSystem where
  /-- `Node::from_path`. -/
  stat : Path → Option Node
  /-- `std::fs::read_dir`. -/
  readDir : Path → Option (List Bytes)
  nodup : ∀ {path names}, readDir path = some names → names.Nodup
  named : ∀ {path node name}, stat path = some node → fileName path = some name →
    node.name = toStringLossy name
  bare : ∀ {path node}, stat path = some node → node.Bare
  /-- No directory is deeper. -/
  height : Nat
  finite : ∀ {path names}, readDir path = some names → names ≠ [] → path.length < height
  /-- The empty path names nothing. -/
  empty : stat [] = none ∧ readDir [] = none

/-- `PathFilter` with excludes only: an exclude rule matches every path that has a matching prefix.
-/
structure PathFilter where
  allow : Path → Bool
  closed : ∀ {path path' : Path}, path <+: path' → allow path' = true → allow path = true

namespace FileSystem

variable (fs : FileSystem) (filter : PathFilter)

/-- The scan of a directory: the names and nodes of the entries that are not excluded, in the order
of their names, unless one of them cannot be read. -/
def scan (path : Path) : Option (List (Bytes × Node)) :=
  match fs.readDir path with
  | none => none
  | some names =>
    (((names.filter fun name => filter.allow (path ++ [.normal name])).insertionSort (· ≤ ·)).mapM
      fun name => (fs.stat (path ++ [.normal name])).map fun node => (name, node))

/-- The next path is an intermediate directory. -/
def takeIntermediate : List (Path × Nat) → List (Path × Node) → Bool
  | (inter, _) :: _, (path, _) :: _ => pathLe inter path && inter ≠ path
  | _ :: _, [] => true
  | [], _ => false

/-- `make_inner_stream`. The lists have the next path first. -/
def walkLoop : Nat → List (Path × Nat) → List (Path × Node) → List (Path × Option StreamNode)
  | 0, _, _ => []
  | fuel + 1, inters, stack =>
    if takeIntermediate inters stack then
      match inters with
      | [] => []
      | (inter, numChildren) :: inters =>
        if filter.allow inter then
          (inter, (fs.stat inter).map (⟨·, numChildren⟩)) :: walkLoop fuel inters stack
        else walkLoop fuel inters stack
    else
      match stack with
      | [] => []
      | (path, node) :: stack =>
        if filter.allow path then
          if node.isDir then
            match fs.scan filter path with
            | some children =>
              (path, some ⟨node, children.length⟩) :: walkLoop fuel inters
                (children.map (fun c => (path ++ [.normal c.1], c.2)) ++ stack)
            | none => (path, some ⟨node, 0⟩) :: (path, none) :: walkLoop fuel inters stack
          else (path, some ⟨node, 0⟩) :: walkLoop fuel inters stack
        else walkLoop fuel inters stack

/-- The path that the stack has for a source: its parent joined with its name. The root of the file
system has neither. -/
def stackPath (path : Path) : Path :=
  match fileName path with
  | some name => (extractParent path).getD [] ++ [.normal name]
  | none => (extractParent path).getD []

/-- `FSNodeStream::from_paths`: the intermediate directories and the stack, unless a source cannot
be read. -/
def fromPaths (sources : List Path) : Option (List (Path × Nat) × List (Path × Node)) :=
  let allowed := sources.filter fun src => filter.allow src
  match allowed.mapM fun src => (fs.stat src).map fun node => (src, node) with
  | none => none
  | some entries =>
    let inters := (getIntermediatePaths (calculateLcp allowed) allowed).2
    some ((inters.filter fun e => filter.allow e.1).insertionSort fun a b => pathLe a.1 b.1,
      (entries.insertionSort fun a b => pathLe a.1 b.1).map fun e => (stackPath e.1, e.2))

/-! ## What lies below a source -/

/-- The number of children that a directory is announced with. -/
def numChildren (path : Path) : Nat := ((fs.scan filter path).getD []).length

/-- The paths at and below a path that are not excluded. -/
inductive Below (top : Path) : Path → Prop where
  | top : Below top top
  | entry {path : Path} {node : Node} {names : List Bytes} {name : Bytes} : Below top path →
      fs.stat path = some node → node.isDir = true → fs.readDir path = some names → name ∈ names →
      filter.allow (path ++ [.normal name]) = true → Below top (path ++ [.normal name])

/-- No read fails below the path. -/
structure Readable (top : Path) : Prop where
  stat : ∀ path, fs.Below filter top path → ∃ node, fs.stat path = some node
  readDir : ∀ path node, fs.Below filter top path → fs.stat path = some node → node.isDir = true →
    ∃ names, fs.readDir path = some names

/-- The items of a walk, without the stack. -/
def walkTree : Nat → Path → Node → List (Path × StreamNode)
  | 0, _, _ => []
  | height + 1, path, node =>
    if node.isDir then
      (path, ⟨node, fs.numChildren filter path⟩) ::
        ((fs.scan filter path).getD []).flatMap fun c =>
          walkTree height (path ++ [.normal c.1]) c.2
    else [(path, ⟨node, 0⟩)]

section Below

variable {fs filter} {top path path' : Path} {node : Node}

theorem Below.le (h : fs.Below filter top path) : top <+: path := by
  induction h with
  | top => exact List.prefix_refl _
  | entry _ _ _ _ _ _ ih => exact ih.trans (List.prefix_append _ _)

theorem Below.trans (h : fs.Below filter top path) (h' : fs.Below filter path path') :
    fs.Below filter top path' := by
  induction h' with
  | top => exact h
  | entry _ hstat hdir hread hname hallow ih => exact .entry ih hstat hdir hread hname hallow

/-- A path below a directory lies at or below one of its entries. -/
theorem Below.eq_or_entry (h : fs.Below filter top path) :
    path = top ∨ ∃ node names name, fs.stat top = some node ∧ node.isDir = true ∧
      fs.readDir top = some names ∧ name ∈ names ∧ filter.allow (top ++ [.normal name]) = true ∧
      fs.Below filter (top ++ [.normal name]) path := by
  induction h with
  | top => exact Or.inl rfl
  | @entry path node names name h hstat hdir hread hname hallow ih =>
    rcases ih with rfl | ⟨node', names', name', hstat', hdir', hread', hname', hallow', hbelow⟩
    · exact Or.inr ⟨node, names, name, hstat, hdir, hread, hname, hallow, .top⟩
    · exact Or.inr ⟨node', names', name', hstat', hdir', hread', hname', hallow',
        .entry hbelow hstat hdir hread hname hallow⟩

theorem Readable.entry (h : fs.Readable filter top) (hpath : fs.Below filter top path) :
    fs.Readable filter path :=
  ⟨fun path' hbelow => h.stat path' (hpath.trans hbelow),
    fun path' node hbelow => h.readDir path' node (hpath.trans hbelow)⟩

theorem Below.length_le (h : fs.Below filter top path) :
    path.length ≤ max top.length fs.height := by
  cases h with
  | top => exact le_max_left _ _
  | entry _ _ _ hread hname _ =>
    have hlt := fs.finite hread (List.ne_nil_of_mem hname)
    rw [List.length_append, List.length_singleton]
    exact le_max_of_le_right hlt

/-- A list whose elements all have a value, with their values. -/
theorem exists_mapM {α β : Type} (f : α → Option β) {l : List α} (h : ∀ a ∈ l, ∃ b, f a = some b) :
    ∃ pairs, l.mapM (fun a => (f a).map fun b => (a, b)) = some pairs ∧ pairs.map Prod.fst = l ∧
      ∀ c ∈ pairs, f c.1 = some c.2 := by
  induction l with
  | nil => exact ⟨[], rfl, rfl, fun c hc => by cases hc⟩
  | cons a l ih =>
    obtain ⟨b, hb⟩ := h a List.mem_cons_self
    obtain ⟨pairs, heq, hfst, hall⟩ := ih fun x hx => h x (List.mem_cons_of_mem _ hx)
    refine ⟨(a, b) :: pairs, ?_, ?_, ?_⟩
    · rw [List.mapM_cons, hb, heq]
      rfl
    · rw [List.map_cons, hfst]
    · intro c hc
      rcases List.mem_cons.mp hc with rfl | hc
      · exact hb
      · exact hall c hc

/-- **The scan of a directory** that can be read. -/
theorem scan_spec (h : fs.Readable filter top) (hpath : fs.Below filter top path)
    (hstat : fs.stat path = some node) (hdir : node.isDir = true) :
    ∃ names children, fs.readDir path = some names ∧ fs.scan filter path = some children ∧
      (children.map Prod.fst).Nodup ∧
      (∀ name, name ∈ children.map Prod.fst ↔
        name ∈ names ∧ filter.allow (path ++ [.normal name]) = true) ∧
      ∀ c ∈ children, fs.stat (path ++ [.normal c.1]) = some c.2 := by
  obtain ⟨names, hread⟩ := h.readDir path node hpath hstat hdir
  -- the entries that are not excluded can be read
  obtain ⟨sorted, hsorted⟩ : ∃ sorted, sorted =
      (names.filter fun name => filter.allow (path ++ [.normal name])).insertionSort (· ≤ ·) :=
    ⟨_, rfl⟩
  have hmem : ∀ name, name ∈ sorted ↔
      name ∈ names ∧ filter.allow (path ++ [.normal name]) = true := by
    intro name
    rw [hsorted, List.mem_insertionSort, List.mem_filter]
  have hstats : ∀ name ∈ sorted, ∃ child, fs.stat (path ++ [.normal name]) = some child :=
    fun name hname => h.stat _ (.entry hpath hstat hdir hread ((hmem name).mp hname).1
      ((hmem name).mp hname).2)
  obtain ⟨children, heq, hnames, hall⟩ :=
    exists_mapM (fun name => fs.stat (path ++ [.normal name])) hstats
  refine ⟨names, children, hread, ?_, ?_, fun name => ?_, hall⟩
  · rw [scan, hread, ← heq, hsorted]
  · rw [hnames, hsorted, (List.perm_insertionSort _ _).nodup_iff]
    exact (fs.nodup hread).filter _
  · rw [hnames, hmem]

/-! ## The items of a walk -/

theorem le_of_mem_walkTree {height : Nat} {i : Path × StreamNode}
    (h : i ∈ fs.walkTree filter height path node) : path <+: i.1 := by
  induction height generalizing path node with
  | zero => cases h
  | succ height ih =>
    rw [walkTree] at h
    split at h
    · rcases List.mem_cons.mp h with rfl | h
      · exact List.prefix_refl _
      · obtain ⟨c, -, hi⟩ := List.mem_flatMap.mp h
        exact (List.prefix_append _ _).trans (ih hi)
    · rw [List.mem_singleton.mp h]

/-- Everything that the walk emits lies below its start and is announced with its children. -/
theorem below_of_mem_walkTree {height : Nat} {i : Path × StreamNode} (hread : fs.Readable filter path)
    (hstat : fs.stat path = some node) (h : i ∈ fs.walkTree filter height path node) :
    fs.Below filter path i.1 ∧ fs.stat i.1 = some i.2.node ∧
      (i.2.node.isDir = true → i.2.numChildren = fs.numChildren filter i.1) := by
  induction height generalizing path node with
  | zero => cases h
  | succ height ih =>
    rw [walkTree] at h
    split at h
    · rename_i hdir
      rcases List.mem_cons.mp h with rfl | h
      · exact ⟨.top, hstat, fun _ => rfl⟩
      · obtain ⟨names, children, hnames, hscan, -, hmem, hstats⟩ := scan_spec hread .top hstat hdir
        rw [hscan, Option.getD_some] at h
        obtain ⟨c, hc, hi⟩ := List.mem_flatMap.mp h
        obtain ⟨hname, hallow⟩ := (hmem c.1).mp (List.mem_map_of_mem hc)
        have hentry : fs.Below filter path (path ++ [.normal c.1]) :=
          .entry .top hstat hdir hnames hname hallow
        obtain ⟨hbelow, hrest⟩ := ih (hread.entry hentry) (hstats c hc) hi
        exact ⟨hentry.trans hbelow, hrest⟩
    · rename_i hdir
      rw [List.mem_singleton.mp h]
      exact ⟨.top, hstat, fun hcontra => absurd hcontra hdir⟩

/-- The walk emits everything that lies below its start. -/
theorem exists_mem_walkTree {height : Nat} (hread : fs.Readable filter path)
    (hstat : fs.stat path = some node) (hbelow : fs.Below filter path path')
    (hheight : path'.length < path.length + height) :
    ∃ i ∈ fs.walkTree filter height path node, i.1 = path' := by
  induction height generalizing path node with
  | zero => exact absurd (hbelow.le.length_le) (by omega)
  | succ height ih =>
    rw [walkTree]
    rcases hbelow.eq_or_entry with rfl | ⟨node', names, name, hstat', hdir, hnames, hname, hallow,
      hrest⟩
    · split
      · exact ⟨_, List.mem_cons_self, rfl⟩
      · exact ⟨_, List.mem_singleton_self _, rfl⟩
    · rw [hstat] at hstat'
      cases hstat'
      obtain ⟨names', children, hnames', hscan, -, hmem, hstats⟩ := scan_spec hread .top hstat hdir
      rw [hnames] at hnames'
      cases hnames'
      obtain ⟨c, hc, rfl⟩ := List.mem_map.mp ((hmem name).mpr ⟨hname, hallow⟩)
      have hentry : fs.Below filter path (path ++ [.normal c.1]) :=
        .entry .top hstat hdir hnames hname hallow
      obtain ⟨i, hi, hpath⟩ := ih (hread.entry hentry) (hstats c hc) hrest (by
        rw [List.length_append, List.length_singleton]
        omega)
      rw [if_pos hdir, hscan, Option.getD_some]
      exact ⟨i, List.mem_cons_of_mem _ (List.mem_flatMap.mpr ⟨c, hc, hi⟩), hpath⟩

/-- The walk emits no path twice. -/
theorem nodup_walkTree {height : Nat} (hread : fs.Readable filter path)
    (hstat : fs.stat path = some node) :
    ((fs.walkTree filter height path node).map Prod.fst).Nodup := by
  induction height generalizing path node with
  | zero => exact List.nodup_nil
  | succ height ih =>
    rw [walkTree]
    split
    · rename_i hdir
      obtain ⟨names, children, hnames, hscan, hnodup, hmem, hstats⟩ := scan_spec hread .top
        hstat hdir
      rw [hscan, Option.getD_some, List.map_cons, List.nodup_cons, List.map_flatMap]
      constructor
      · -- the entries are longer than the path
        intro h
        obtain ⟨c, -, hc⟩ := List.mem_flatMap.mp h
        obtain ⟨i, hi, hpath⟩ := List.mem_map.mp hc
        have hle := (le_of_mem_walkTree hi).length_le
        rw [hpath, List.length_append, List.length_singleton] at hle
        exact absurd hle (Nat.not_succ_le_self _)
      · refine List.nodup_flatMap.mpr ⟨fun c hc => ?_, ?_⟩
        · obtain ⟨hname, hallow⟩ := (hmem c.1).mp (List.mem_map_of_mem hc)
          exact ih (hread.entry (.entry .top hstat hdir hnames hname hallow)) (hstats c hc)
        · -- two entries have nothing in common
          refine (List.pairwise_map.mp hnodup).imp fun {c c'} hne => ?_
          intro q hq hq'
          obtain ⟨i, hi, rfl⟩ := List.mem_map.mp hq
          obtain ⟨j, hj, hpath⟩ := List.mem_map.mp hq'
          have hle := le_of_mem_walkTree hi
          have hle' := le_of_mem_walkTree hj
          rw [hpath] at hle'
          exact hne (Component.normal.inj (next_unique hle hle'))
    · exact List.nodup_singleton _

/-- Once the height is enough, more of it does not change the walk. -/
theorem walkTree_succ {height : Nat} (hread : fs.Readable filter path)
    (hstat : fs.stat path = some node)
    (hpos : 0 < height) (hheight : fs.height < height + path.length) :
    fs.walkTree filter (height + 1) path node = fs.walkTree filter height path node := by
  induction height generalizing path node with
  | zero => exact absurd hpos (lt_irrefl _)
  | succ height ih =>
    rw [walkTree, walkTree]
    split
    · rename_i hdir
      obtain ⟨names, children, hnames, hscan, -, hmem, hstats⟩ := scan_spec hread .top hstat hdir
      rw [hscan, Option.getD_some]
      refine congrArg (List.cons _) (List.flatMap_congr fun c hc => ?_)
      obtain ⟨hname, hallow⟩ := (hmem c.1).mp (List.mem_map_of_mem hc)
      have hlt := fs.finite hnames (List.ne_nil_of_mem hname)
      refine ih (hread.entry (.entry .top hstat hdir hnames hname hallow)) (hstats c hc)
        (by omega) ?_
      rw [List.length_append, List.length_singleton]
      omega
    · rfl

end Below

/-! ## The stream -/

section Loop

variable {fs filter} {inters : List (Path × Nat)} {stack : List (Path × Node)}

/-- What the loop has still to emit: the intermediate directories, and what lies below the stack. -/
def pendingItems (fs : FileSystem) (filter : PathFilter) (inters : List (Path × Nat))
    (stack : List (Path × Node)) : List (Path × Option StreamNode) :=
  inters.map (fun e => (e.1, (fs.stat e.1).map (⟨·, e.2⟩))) ++
    stack.flatMap fun e => (fs.walkTree filter (fs.height + 1) e.1 e.2).map fun i => (i.1, some i.2)

/-- A path of the stack is not excluded, and everything below it can be read. -/
def Ready (fs : FileSystem) (filter : PathFilter) (e : Path × Node) : Prop :=
  filter.allow e.1 = true ∧ fs.Readable filter e.1 ∧ fs.stat e.1 = some e.2

/-- The entries of a directory that is ready are ready, and the depth of the walk is enough for
them. -/
theorem Ready.exists_scan {path : Path} {node : Node} (h : fs.Ready filter (path, node))
    (hdir : node.isDir = true) :
    ∃ children, fs.scan filter path = some children ∧
      ∀ c ∈ children, fs.Ready filter (path ++ [Component.normal c.1], c.2) ∧
        fs.walkTree filter (fs.height + 1) (path ++ [Component.normal c.1]) c.2 =
          fs.walkTree filter fs.height (path ++ [Component.normal c.1]) c.2 := by
  obtain ⟨hallow, hread, hstat⟩ := h
  obtain ⟨names, children, hnames, hscan, -, hmem, hstats⟩ := scan_spec hread .top hstat hdir
  refine ⟨children, hscan, fun c hc => ?_⟩
  obtain ⟨hname, hallow'⟩ := (hmem c.1).mp (List.mem_map_of_mem hc)
  have hlt := fs.finite hnames (List.ne_nil_of_mem hname)
  have hread' := hread.entry (.entry .top hstat hdir hnames hname hallow')
  dsimp only at hlt
  refine ⟨⟨hallow', hread', hstats c hc⟩, walkTree_succ hread' (hstats c hc) (by omega) ?_⟩
  rw [List.length_append, List.length_singleton]
  omega

/-- A directory gives its own item and the items of its entries. -/
theorem pendingItems_dir (inters : List (Path × Nat)) (stack : List (Path × Node)) {path : Path}
    {node : Node} {children : List (Bytes × Node)} (hdir : node.isDir = true)
    (hscan : fs.scan filter path = some children)
    (hdepth : ∀ c ∈ children,
      fs.walkTree filter (fs.height + 1) (path ++ [Component.normal c.1]) c.2 =
        fs.walkTree filter fs.height (path ++ [Component.normal c.1]) c.2) :
    (fs.pendingItems filter inters ((path, node) :: stack)).Perm
      ((path, some ⟨node, children.length⟩) :: fs.pendingItems filter inters
        (children.map (fun c => (path ++ [Component.normal c.1], c.2)) ++ stack)) := by
  have hflat : (children.flatMap fun c =>
        (fs.walkTree filter (fs.height + 1) (path ++ [Component.normal c.1]) c.2).map
          fun i => (i.1, some i.2)) =
      children.flatMap fun c =>
        (fs.walkTree filter fs.height (path ++ [Component.normal c.1]) c.2).map
          fun i => (i.1, some i.2) :=
    List.flatMap_congr fun c hc => by rw [hdepth c hc]
  rw [pendingItems, pendingItems, List.flatMap_cons, walkTree, if_pos hdir, numChildren,
    hscan, Option.getD_some, List.map_cons, List.flatMap_append, List.map_flatMap,
    List.flatMap_map, List.cons_append, hflat]
  exact List.perm_middle

theorem pendingItems_leaf (fs : FileSystem) (filter : PathFilter) (inters : List (Path × Nat))
    (stack : List (Path × Node)) (path : Path) {node : Node} (hdir : ¬ node.isDir = true) :
    (fs.pendingItems filter inters ((path, node) :: stack)).Perm
      ((path, some ⟨node, 0⟩) :: fs.pendingItems filter inters stack) := by
  rw [pendingItems, pendingItems, List.flatMap_cons, walkTree, if_neg hdir, List.map_singleton,
    List.singleton_append]
  exact List.perm_middle

/-- **What the stream emits**: with enough fuel, the intermediate directories and everything below
the sources, each once. -/
theorem walkLoop_perm {fuel : Nat} (hinters : ∀ e ∈ inters, filter.allow e.1 = true)
    (hstack : ∀ e ∈ stack, fs.Ready filter e)
    (hfuel : (fs.pendingItems filter inters stack).length < fuel) :
    (fs.walkLoop filter fuel inters stack).Perm (fs.pendingItems filter inters stack) := by
  induction fuel generalizing inters stack with
  | zero => exact absurd hfuel (Nat.not_lt_zero _)
  | succ fuel ih =>
    rw [walkLoop.eq_def]
    dsimp only
    by_cases htake : takeIntermediate inters stack = true
    · -- an intermediate directory
      rw [if_pos htake]
      cases inters with
      | nil =>
        rw [takeIntermediate] at htake
        cases htake
      | cons e inters =>
        dsimp only
        rw [if_pos (hinters e List.mem_cons_self)]
        refine List.Perm.cons _ (ih (fun e he => hinters e (List.mem_cons_of_mem _ he)) hstack ?_)
        rw [pendingItems, List.map_cons, List.cons_append, List.length_cons] at hfuel
        exact Nat.lt_of_succ_lt_succ hfuel
    · rw [if_neg htake]
      cases stack with
      | nil =>
        cases inters with
        | nil => exact .nil
        | cons e inters => exact absurd rfl htake
      | cons e stack =>
        obtain ⟨path, node⟩ := e
        have hready := hstack _ List.mem_cons_self
        have hrest : ∀ e ∈ stack, fs.Ready filter e := fun e he =>
          hstack e (List.mem_cons_of_mem _ he)
        dsimp only
        rw [if_pos hready.1]
        by_cases hdir : node.isDir = true
        · -- the entries of a directory go on the stack
          obtain ⟨children, hscan, hchildren⟩ := hready.exists_scan hdir
          have hitems := pendingItems_dir inters stack hdir hscan fun c hc => (hchildren c hc).2
          rw [if_pos hdir, hscan]
          dsimp only
          refine (List.Perm.cons _ (ih hinters (fun e he => ?_) ?_)).trans hitems.symm
          · rcases List.mem_append.mp he with hnew | hold
            · obtain ⟨c, hc, rfl⟩ := List.mem_map.mp hnew
              exact (hchildren c hc).1
            · exact hrest e hold
          · rw [hitems.length_eq, List.length_cons] at hfuel
            exact Nat.lt_of_succ_lt_succ hfuel
        · have hitems := fs.pendingItems_leaf filter inters stack path hdir
          rw [if_neg hdir]
          refine (List.Perm.cons _ (ih hinters hrest ?_)).trans hitems.symm
          rw [hitems.length_eq, List.length_cons] at hfuel
          exact Nat.lt_of_succ_lt_succ hfuel

end Loop

end FileSystem

end Mapache
