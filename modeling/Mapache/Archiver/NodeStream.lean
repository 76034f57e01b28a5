import Mapache.Archiver.Sources
import Mapache.Fs.Diff
import Mapache.Fs.Filter

/-!
# The stream of the file system

What `FSNodeStream` yields for source paths of which none lies below another one. The loop merges the
intermediate directories with the stack of the walk: whatever is below a path of the stack comes
before the next path of the stack (`ComesBefore`), so the paths of the stream increase
(`Walking.pairwise_walkLoop`). The numbers of children come from two places, the scan of a directory
and `get_intermediate_paths`; both say how many paths of the stream are in the directory
(`StreamYields.numChildren_eq`).
-/

set_option autoImplicit false

namespace Mapache

open Lib

/-! ## Paths that part -/

/-- Two paths part at a component, so whatever is at or below the first one comes before whatever is
at or below the second one. -/
def ComesBefore (p q : Path) : Prop :=
  ∃ base a b rest rest', a.lt b = true ∧ p = base ++ a :: rest ∧ q = base ++ b :: rest'

section Order

variable {p q p' q' : Path}

/-- A path comes before what is below it. -/
theorem pathLe_of_isPrefix (h : p <+: q) : pathLe p q = true := by
  obtain ⟨rest, rfl⟩ := h
  cases rest with
  | nil =>
    rw [List.append_nil]
    exact pathLe_refl p
  | cons c rest => exact (pathLt_append p c rest).1

theorem ComesBefore.pathLe (h : ComesBefore p q) : pathLe p q = true := by
  obtain ⟨base, a, b, rest, rest', hab, rfl, rfl⟩ := h
  induction base with
  | nil => simp [Mapache.pathLe, hab]
  | cons c base ih => simp [Mapache.pathLe, ih]

/-- What is below the two paths parts where they do. -/
theorem ComesBefore.below (h : ComesBefore p q) (hp : p <+: p') (hq : q <+: q') :
    ComesBefore p' q' := by
  obtain ⟨base, a, b, rest, rest', hab, rfl, rfl⟩ := h
  obtain ⟨more, rfl⟩ := hp
  obtain ⟨more', rfl⟩ := hq
  exact ⟨base, a, b, rest ++ more, rest' ++ more', hab, by simp, by simp⟩

/-- Two paths part unless the first one lies at or above the second one. -/
theorem comesBefore_of_pathLe (h : pathLe p q = true) (hnot : ¬ p <+: q) : ComesBefore p q := by
  induction p generalizing q with
  | nil => exact absurd List.nil_prefix hnot
  | cons a p ih =>
    cases q with
    | nil => cases h
    | cons b q =>
      simp only [pathLe, Bool.or_eq_true, Bool.and_eq_true, decide_eq_true_iff] at h
      rcases h with hab | ⟨rfl, h⟩
      · exact ⟨[], a, b, p, q, hab, rfl, rfl⟩
      · -- the same first component
        obtain ⟨base, x, y, rest, rest', hxy, rfl, rfl⟩ :=
          ih h fun hle => hnot ((List.prefix_cons_inj a).mpr hle)
        exact ⟨a :: base, x, y, rest, rest', hxy, rfl, rfl⟩

/-- The entries of a directory part by their names. -/
theorem comesBefore_of_lt (dir : Path) {a b : Bytes} (h : a < b) :
    ComesBefore (dir ++ [.normal a]) (dir ++ [.normal b]) :=
  ⟨dir, .normal a, .normal b, [], [], by simp [Component.lt, h], rfl, rfl⟩

end Order

namespace FileSystem

variable {fs : FileSystem} {filter : PathFilter}

/-! ## The order of the stream -/

section Order

variable {inters : List (Path × Nat)} {stack : List (Path × Node)} {path : Path} {node : Node}
  {children : List (Bytes × Node)}

/-- A list whose elements all had a value, with the elements. -/
theorem map_fst_of_mapM {α β : Type} {f : α → Option β} {l : List α} {pairs : List (α × β)}
    (h : l.mapM (fun a => (f a).map fun b => (a, b)) = some pairs) : pairs.map Prod.fst = l := by
  induction l generalizing pairs with
  | nil =>
    cases h
    rfl
  | cons a l ih =>
    rw [List.mapM_cons] at h
    obtain ⟨pair, hpair, h⟩ := Option.bind_eq_some_iff.mp h
    obtain ⟨rest, hrest, h⟩ := Option.bind_eq_some_iff.mp h
    obtain ⟨b, -, rfl⟩ := Option.map_eq_some_iff.mp hpair
    cases h
    rw [List.map_cons, ih hrest]

/-- The names of a scan increase. -/
theorem pairwise_scan (h : fs.scan filter path = some children) :
    children.Pairwise fun a b => a.1 < b.1 := by
  rw [scan] at h
  split at h
  · cases h
  · rename_i names hnames
    have hfst := map_fst_of_mapM h
    have hsorted : (children.map Prod.fst).Pairwise (· ≤ ·) := by
      rw [hfst]
      exact List.pairwise_insertionSort _ _
    have hnodup : (children.map Prod.fst).Nodup := by
      rw [hfst, (List.perm_insertionSort _ _).nodup_iff]
      exact (fs.nodup hnames).filter _
    refine List.pairwise_map.mp ((hsorted.and hnodup).imp fun {a b} h => ?_)
    by_contra hlt
    exact h.2 (List.le_antisymm h.1 (List.not_lt.mp hlt))

/-- What is pending comes after whatever comes before the two lists. -/
theorem pathLe_pendingItems {p : Path} (hinters : ∀ e ∈ inters, pathLe p e.1 = true)
    (hstack : ∀ e ∈ stack, pathLe p e.1 = true) :
    ∀ i ∈ fs.pendingItems filter inters stack, pathLe p i.1 = true := by
  intro i hi
  rcases List.mem_append.mp hi with hinter | hwalk
  · obtain ⟨e, he, rfl⟩ := List.mem_map.mp hinter
    exact hinters e he
  · obtain ⟨e, he, hitem⟩ := List.mem_flatMap.mp hwalk
    obtain ⟨j, hj, rfl⟩ := List.mem_map.mp hitem
    exact pathLe_trans (hstack e he) (pathLe_of_isPrefix (le_of_mem_walkTree hj))

/-- The loop of the stream, with both lists in their order. -/
structure Walking (fs : FileSystem) (filter : PathFilter) (inters : List (Path × Nat))
    (stack : List (Path × Node)) : Prop where
  allowed : ∀ e ∈ inters, filter.allow e.1 = true
  ready : ∀ e ∈ stack, fs.Ready filter e
  sorted : inters.Pairwise fun a b => pathLe a.1 b.1 = true
  parts : stack.Pairwise fun a b => ComesBefore a.1 b.1

/-- An intermediate directory is taken, and comes before everything else. -/
theorem Walking.intermediate {e : Path × Nat} (h : Walking fs filter (e :: inters) stack)
    (htake : takeIntermediate (e :: inters) stack = true) :
    Walking fs filter inters stack ∧
      ∀ i ∈ fs.pendingItems filter inters stack, pathLe e.1 i.1 = true := by
  obtain ⟨hfirst, hsorted⟩ := List.pairwise_cons.mp h.sorted
  refine ⟨⟨fun c hc => h.allowed c (List.mem_cons_of_mem _ hc), h.ready, hsorted, h.parts⟩,
    pathLe_pendingItems hfirst fun c hc => ?_⟩
  cases stack with
  | nil => cases hc
  | cons c' stack =>
    rw [takeIntermediate, Bool.and_eq_true] at htake
    rcases List.mem_cons.mp hc with rfl | hc
    · exact htake.1
    · exact pathLe_trans htake.1 ((List.pairwise_cons.mp h.parts).1 c hc).pathLe

/-- The next path of the stack comes before the intermediate directories, when none is taken. -/
theorem pathLe_of_not_take (hsorted : inters.Pairwise fun a b => pathLe a.1 b.1 = true)
    (htake : ¬ takeIntermediate inters ((path, node) :: stack) = true) :
    ∀ e ∈ inters, pathLe path e.1 = true := by
  cases inters with
  | nil =>
    intro e he
    cases he
  | cons c inters =>
    have hle : pathLe path c.1 = true := by
      by_cases heq : c.1 = path
      · rw [heq]
        exact pathLe_refl path
      · rcases pathLe_total path c.1 with h | h
        · exact h
        · exact absurd (by simp [takeIntermediate, h, heq]) htake
    intro e he
    rcases List.mem_cons.mp he with rfl | he
    · exact hle
    · exact pathLe_trans hle ((List.pairwise_cons.mp hsorted).1 e he)

/-- The next path of the stack is taken, and comes before everything else. -/
theorem Walking.pop (h : Walking fs filter inters ((path, node) :: stack))
    (htake : ¬ takeIntermediate inters ((path, node) :: stack) = true) :
    Walking fs filter inters stack ∧
      ∀ i ∈ fs.pendingItems filter inters stack, pathLe path i.1 = true := by
  obtain ⟨hfirst, hparts⟩ := List.pairwise_cons.mp h.parts
  refine ⟨⟨h.allowed, fun c hc => h.ready c (List.mem_cons_of_mem _ hc), h.sorted, hparts⟩, ?_⟩
  exact pathLe_pendingItems (pathLe_of_not_take h.sorted htake) fun c hc => (hfirst c hc).pathLe

/-- A directory is taken, and its entries go on the stack. -/
theorem Walking.directory (h : Walking fs filter inters ((path, node) :: stack))
    (htake : ¬ takeIntermediate inters ((path, node) :: stack) = true)
    (hscan : fs.scan filter path = some children)
    (hready : ∀ c ∈ children, fs.Ready filter (path ++ [Component.normal c.1], c.2)) :
    Walking fs filter inters
        (children.map (fun c => (path ++ [Component.normal c.1], c.2)) ++ stack) ∧
      ∀ i ∈ fs.pendingItems filter inters
        (children.map (fun c => (path ++ [Component.normal c.1], c.2)) ++ stack),
        pathLe path i.1 = true := by
  obtain ⟨hrest, -⟩ := h.pop htake
  have hfirst := (List.pairwise_cons.mp h.parts).1
  refine ⟨⟨h.allowed, fun e he => ?_, h.sorted, List.pairwise_append.mpr ⟨?_, hrest.parts, ?_⟩⟩,
    pathLe_pendingItems (pathLe_of_not_take h.sorted htake) fun e he => ?_⟩
  · rcases List.mem_append.mp he with hnew | hold
    · obtain ⟨c, hc, rfl⟩ := List.mem_map.mp hnew
      exact hready c hc
    · exact hrest.ready e hold
  · exact List.pairwise_map.mpr ((pairwise_scan hscan).imp fun hlt => comesBefore_of_lt path hlt)
  · -- the entries lie below the directory, which parts from the rest of the stack
    intro e he c hc
    obtain ⟨d, -, rfl⟩ := List.mem_map.mp he
    exact (hfirst c hc).below (List.prefix_append _ _) (List.prefix_refl _)
  · rcases List.mem_append.mp he with hnew | hold
    · obtain ⟨c, -, rfl⟩ := List.mem_map.mp hnew
      exact pathLe_of_isPrefix (List.prefix_append _ _)
    · exact (hfirst e hold).pathLe

/-- **The paths of the stream are in their order.** -/
theorem Walking.pairwise_walkLoop {fuel : Nat} (h : Walking fs filter inters stack)
    (hfuel : (fs.pendingItems filter inters stack).length < fuel) :
    (fs.walkLoop filter fuel inters stack).Pairwise fun a b => pathLe a.1 b.1 = true := by
  induction fuel generalizing inters stack with
  | zero => exact absurd hfuel (Nat.not_lt_zero _)
  | succ fuel ih =>
    -- the loop goes on in a state whose paths all come after the one that is emitted
    have hnext : ∀ {p : Path} {item : Option StreamNode} {inters' : List (Path × Nat)}
        {stack' : List (Path × Node)},
        (Walking fs filter inters' stack' ∧
          ∀ i ∈ fs.pendingItems filter inters' stack', pathLe p i.1 = true) →
        (fs.pendingItems filter inters stack).Perm
          ((p, item) :: fs.pendingItems filter inters' stack') →
        ((p, item) :: fs.walkLoop filter fuel inters' stack').Pairwise fun a b =>
          pathLe a.1 b.1 = true := by
      intro p item inters' stack' ⟨hwalking, hafter⟩ hperm
      have hlen : (fs.pendingItems filter inters' stack').length < fuel := by
        rw [hperm.length_eq, List.length_cons] at hfuel
        exact Nat.lt_of_succ_lt_succ hfuel
      refine List.pairwise_cons.mpr ⟨fun i hi => hafter i ?_, ih hwalking hlen⟩
      exact (walkLoop_perm hwalking.allowed hwalking.ready hlen).subset hi
    rw [walkLoop.eq_def]
    dsimp only
    by_cases htake : takeIntermediate inters stack = true
    · rw [if_pos htake]
      cases inters with
      | nil =>
        rw [takeIntermediate] at htake
        cases htake
      | cons e inters =>
        dsimp only
        rw [if_pos (h.allowed e List.mem_cons_self)]
        exact hnext (h.intermediate htake) (.refl _)
    · rw [if_neg htake]
      cases stack with
      | nil => exact .nil
      | cons e stack =>
        obtain ⟨path, node⟩ := e
        have hready := h.ready _ List.mem_cons_self
        dsimp only
        rw [if_pos hready.1]
        by_cases hdir : node.isDir = true
        · obtain ⟨children, hscan, hchildren⟩ := hready.exists_scan hdir
          rw [if_pos hdir, hscan]
          exact hnext (h.directory htake hscan fun c hc => (hchildren c hc).1)
            (pendingItems_dir inters stack hdir hscan fun c hc => (hchildren c hc).2)
        · rw [if_neg hdir]
          exact hnext (h.pop htake) (fs.pendingItems_leaf filter inters stack path hdir)

/-- More fuel gives the same items in the same order. -/
theorem Walking.walkLoop_fuel {fuel fuel' : Nat} (h : Walking fs filter inters stack)
    (hnodup : ((fs.pendingItems filter inters stack).map Prod.fst).Nodup)
    (hfuel : (fs.pendingItems filter inters stack).length < fuel)
    (hfuel' : (fs.pendingItems filter inters stack).length < fuel') :
    fs.walkLoop filter fuel inters stack = fs.walkLoop filter fuel' inters stack := by
  have hperm := walkLoop_perm h.allowed h.ready hfuel
  have hperm' := walkLoop_perm h.allowed h.ready hfuel'
  refine (hperm.trans hperm'.symm).eq_of_pairwise ?_ (h.pairwise_walkLoop hfuel)
    (h.pairwise_walkLoop hfuel')
  intro a b ha hb hab hba
  exact List.inj_on_of_nodup_map hnodup (hperm.subset ha) (hperm'.subset hb)
    (pathLe_antisymm hab hba)

end Order

end FileSystem

/-! ## The numbers of children -/

section Counts

variable {fs : FileSystem} {filter : PathFilter} {sources : List Path} {root src dir path : Path}
  {node : Node} {name : Bytes} {inters : List (Path × Nat)} {stack : List (Path × Node)}
  {items : List (Path × StreamNode)}

/-- A child on the way to a source has a name. -/
theorem OnWay.exists_name {c : Component} (habs : ∀ src ∈ sources, Absolute src) (hne : dir ≠ [])
    (h : OnWay sources dir c) : ∃ name, c = .normal name := by
  obtain ⟨src, hsrc, hway⟩ := h
  obtain ⟨-, names, hnames⟩ := (habs src hsrc).exists_names ((List.prefix_append _ _).trans hway) hne
  rw [hnames] at hway
  have hmem : [c] <+: names.map Component.normal := (List.prefix_append_right_inj dir).mp hway
  obtain ⟨name, -, rfl⟩ := List.mem_map.mp (hmem.subset (List.mem_singleton_self c))
  exact ⟨name, rfl⟩

/-- **What `get_intermediate_paths` lists**: the directories strictly between the root and a source,
with the number of their children on the way to one. -/
theorem mem_getIntermediatePaths_iff (h : ∀ src ∈ sources, Absolute src ∧ StrictPrefix root src)
    {count : Nat} :
    (dir, count) ∈ (getIntermediatePaths root sources).2 ↔
      IsIntermediate root sources dir ∧ ∃ names : List Bytes, names.Nodup ∧ names.length = count ∧
        ∀ name, name ∈ names ↔ OnWay sources dir (.normal name) := by
  have hcounted := getIntermediatePaths_spec h
  obtain ⟨map, hmap⟩ : ∃ map, map = (sources.foldl (addSource root) ([], ∅)).2 := ⟨_, rfl⟩
  have hmem : (dir, count) ∈ (getIntermediatePaths root sources).2 ↔
      ∃ names, map.lookup dir = some names ∧ names.length = count := by
    rw [getIntermediatePaths, ← hmap, Table.mem_map_toList]
  constructor
  · intro hcount
    have hinter := SourceStream.isIntermediate_of_mem h hcount
    obtain ⟨names, hlookup, hlen⟩ := hmem.mp hcount
    have hnames : childNames map dir = names := by rw [childNames, hlookup, Option.getD_some]
    refine ⟨hinter, names, ?_, hlen, fun name => ?_⟩
    · rw [← hnames, hmap]
      exact hcounted.nodup dir
    · rw [← hnames, hmap, hcounted.mem]
      exact and_iff_right hinter.1
  · rintro ⟨hinter, names, hnodup, rfl, hnames⟩
    have hperm : (childNames map dir).Perm names := by
      refine (List.perm_ext_iff_of_nodup (hmap ▸ hcounted.nodup dir) hnodup).mpr fun name => ?_
      rw [hnames, hmap, hcounted.mem]
      exact and_iff_right hinter.1
    cases hlookup : map.lookup dir with
    | some names' =>
      rw [childNames, hlookup, Option.getD_some] at hperm
      exact hmem.mpr ⟨names', hlookup, hperm.length_eq⟩
    | none =>
      -- there is a child on the way to the source
      obtain ⟨hroot, src, hsrc, hlt⟩ := hinter
      obtain ⟨c, hc⟩ := hlt.exists_next
      obtain ⟨name, rfl⟩ := OnWay.exists_name (fun src hsrc => (h src hsrc).1) hroot.ne_nil
        ⟨src, hsrc, hc⟩
      have hname := (hnames name).mpr ⟨src, hsrc, hc⟩
      rw [childNames, hlookup, Option.getD_none] at hperm
      rw [List.nil_perm.mp hperm] at hname
      cases hname

/-- Every directory strictly between the root and a source is listed. -/
theorem exists_getIntermediatePaths (h : ∀ src ∈ sources, Absolute src ∧ StrictPrefix root src)
    (hinter : IsIntermediate root sources dir) :
    ∃ count, (dir, count) ∈ (getIntermediatePaths root sources).2 := by
  have hcounted := getIntermediatePaths_spec h
  refine ⟨_, (mem_getIntermediatePaths_iff h).mpr ⟨hinter, _, hcounted.nodup dir, rfl, ?_⟩⟩
  intro name
  rw [hcounted.mem]
  exact and_iff_right hinter.1

/-- The parent of a path is the directory that the path has a name in. -/
theorem extractParent_eq_some :
    extractParent path = some dir ↔ ∃ name, path = dir ++ [.normal name] := by
  constructor
  · intro h
    rw [extractParent] at h
    split at h
    · rename_i name hlast
      cases h
      exact ⟨name, (List.dropLast_append_getLast? _ hlast).symm⟩
    · cases h
  · rintro ⟨name, rfl⟩
    exact extractParent_append dir name

/-- What is requested in a directory below a source: its entries that are not excluded. -/
theorem requested_entry_iff (hnested : NotNested sources) (hsrc : src ∈ sources)
    (hbelow : fs.Below filter src dir) (hstat : fs.stat dir = some node) :
    Requested fs filter sources (dir ++ [.normal name]) ↔ node.isDir = true ∧
      ∃ names, fs.readDir dir = some names ∧ name ∈ names ∧
        filter.allow (dir ++ [.normal name]) = true := by
  have hle : src <+: dir ++ [.normal name] := hbelow.le.trans (List.prefix_append _ _)
  constructor
  · rintro (hinter | ⟨src', hsrc', hentry⟩)
    · exact absurd hinter (hnested.not_intermediate hsrc hle)
    · obtain rfl := hnested.source_unique hsrc hsrc' hle hentry.le
      generalize hpath : dir ++ [Component.normal name] = path at hentry ⊢
      cases hentry with
      | top =>
        -- the directory would be shorter than the source
        have hlen := hbelow.le.length_le
        rw [← hpath, List.length_append, List.length_singleton] at hlen
        exact absurd hlen (Nat.not_succ_le_self _)
      | @entry dir' node' names name' _ hstat' hdir hread hname hallow =>
        obtain ⟨rfl, heq⟩ := List.append_inj' hpath rfl
        cases heq
        rw [hstat] at hstat'
        cases hstat'
        exact ⟨hdir, names, hread, hname, hallow⟩
  · rintro ⟨hdir, names, hread, hname, hallow⟩
    exact Or.inr ⟨src, hsrc, .entry hbelow hstat hdir hread hname hallow⟩

/-- What is requested in a directory on the way to a source: its children on the way to one. -/
theorem requested_child_iff (hnested : NotNested sources)
    (hinter : IsIntermediate (calculateLcp sources) sources dir) :
    Requested fs filter sources (dir ++ [.normal name]) ↔ OnWay sources dir (.normal name) := by
  constructor
  · rintro (⟨-, src, hsrc, hlt⟩ | ⟨src, hsrc, hbelow⟩)
    · exact ⟨src, hsrc, hlt.1⟩
    · rcases prefix_append_singleton_iff.mp hbelow.le with habove | rfl
      · exact absurd hinter (hnested.not_intermediate hsrc habove)
      · exact ⟨_, hsrc, List.prefix_refl _⟩
  · rintro ⟨src, hsrc, hway⟩
    by_cases heq : dir ++ [Component.normal name] = src
    · rw [heq]
      exact Or.inr ⟨src, hsrc, .top⟩
    · exact Or.inl ⟨hinter.1.trans_le (List.prefix_append _ _), src, hsrc, hway, heq⟩

/-- The items of the stream: the requested paths, with their nodes and the numbers of their
children. -/
structure StreamYields (fs : FileSystem) (filter : PathFilter) (sources : List Path)
    (items : List (Path × StreamNode)) : Prop where
  nodup : (items.map Prod.fst).Nodup
  mem : ∀ path, path ∈ items.map Prod.fst ↔ Requested fs filter sources path
  found : ∀ i ∈ items, fs.stat i.1 = some i.2.node
  count : ∀ i ∈ items, RightCount fs filter sources i.1 i.2
  leaf : ∀ i ∈ items, i.2.node.isDir = false →
    IsIntermediate (calculateLcp sources) sources i.1 ∨ i.2.numChildren = 0

/-- The number of items in a directory is that of the names that are requested there. -/
theorem StreamYields.length_children (h : StreamYields fs filter sources items) {names : List Bytes}
    (hnodup : names.Nodup)
    (hnames : ∀ name, name ∈ names ↔ Requested fs filter sources (dir ++ [.normal name])) :
    (items.filter fun i => extractParent i.1 = some dir).length = names.length := by
  have hperm : ((items.filter fun i => extractParent i.1 = some dir).map Prod.fst).Perm
      (names.map fun name => dir ++ [Component.normal name]) := by
    have hinj : Function.Injective fun name => dir ++ [Component.normal name] := by
      intro a b heq
      simpa using heq
    refine (List.perm_ext_iff_of_nodup (h.nodup.sublist (List.filter_sublist.map _))
      (hnodup.map hinj)).mpr fun path => ?_
    constructor
    · intro hpath
      obtain ⟨i, hi, rfl⟩ := List.mem_map.mp hpath
      obtain ⟨hi, hparent⟩ := List.mem_filter.mp hi
      obtain ⟨name, hname⟩ := extractParent_eq_some.mp (decide_eq_true_iff.mp hparent)
      refine List.mem_map.mpr ⟨name, (hnames name).mpr ?_, hname.symm⟩
      rw [← hname]
      exact (h.mem i.1).mp (List.mem_map_of_mem hi)
    · intro hpath
      obtain ⟨name, hname, rfl⟩ := List.mem_map.mp hpath
      obtain ⟨i, hi, heq⟩ := List.mem_map.mp ((h.mem _).mpr ((hnames name).mp hname))
      refine List.mem_map.mpr ⟨i, List.mem_filter.mpr ⟨hi, ?_⟩, heq⟩
      rw [heq, extractParent_append]
      exact decide_eq_true rfl
  rw [← List.length_map (f := Prod.fst), hperm.length_eq, List.length_map]

/-- **Every item is announced with the number of the items in it.** -/
theorem StreamYields.numChildren_eq (h : StreamYields fs filter sources items)
    (hnested : NotNested sources)
    (hbelow : ∀ src ∈ sources, Absolute src ∧ StrictPrefix (calculateLcp sources) src)
    (hread : NoReadFails fs filter sources) {i : Path × StreamNode} (hi : i ∈ items) :
    i.2.numChildren = (items.filter fun j => extractParent j.1 = some i.1).length := by
  rcases h.count i hi with ⟨hinter, hcount⟩ | ⟨src, hsrc, hpath, hcount⟩
  · -- the number that `get_intermediate_paths` gives
    obtain ⟨-, names, hnodup, hlen, hnames⟩ := (mem_getIntermediatePaths_iff hbelow).mp hcount
    rw [h.length_children hnodup fun name =>
      (hnames name).trans (requested_child_iff hnested hinter).symm, hlen]
  · have hstat := h.found i hi
    cases hdir : i.2.node.isDir with
    | true =>
      -- the number of entries of the scan
      obtain ⟨names, children, hnames, hscan, hnodup, hmem, -⟩ :=
        FileSystem.scan_spec (hread.below src hsrc) hpath hstat hdir
      rw [hcount hdir, FileSystem.numChildren, hscan, Option.getD_some,
        h.length_children hnodup fun name => ?_, List.length_map]
      rw [hmem, requested_entry_iff hnested hsrc hpath hstat, hnames]
      constructor
      · rintro ⟨hname, hallow⟩
        exact ⟨hdir, names, rfl, hname, hallow⟩
      · rintro ⟨-, names', heq, hname, hallow⟩
        cases heq
        exact ⟨hname, hallow⟩
    | false =>
      have hzero : i.2.numChildren = 0 := by
        rcases h.leaf i hi hdir with hinter | hzero
        · exact absurd hinter (hnested.not_intermediate hsrc hpath.le)
        · exact hzero
      rw [hzero, h.length_children List.nodup_nil fun name => ?_]
      · rfl
      · rw [requested_entry_iff hnested hsrc hpath hstat, hdir]
        simp

/-- A path that is no directory is walked without children. -/
theorem numChildren_of_not_isDir {height : Nat} {i : Path × StreamNode}
    (hi : i ∈ fs.walkTree filter height path node) (hdir : i.2.node.isDir = false) :
    i.2.numChildren = 0 := by
  induction height generalizing path node with
  | zero => cases hi
  | succ height ih =>
    rw [FileSystem.walkTree] at hi
    split at hi
    · rename_i hnode
      rcases List.mem_cons.mp hi with rfl | hi
      · rw [hnode] at hdir
        cases hdir
      · obtain ⟨c, -, hi⟩ := List.mem_flatMap.mp hi
        exact ih hi
    · rw [List.mem_singleton.mp hi]

/-- Items without errors. -/
theorem exists_items {emitted : List (Path × Option StreamNode)}
    (h : ∀ e ∈ emitted, ∃ next, e.2 = some next) :
    ∃ items : List (Path × StreamNode), emitted = items.map fun i => (i.1, some i.2) := by
  induction emitted with
  | nil => exact ⟨[], rfl⟩
  | cons e emitted ih =>
    obtain ⟨next, hnext⟩ := h e List.mem_cons_self
    obtain ⟨items, rfl⟩ := ih fun e he => h e (List.mem_cons_of_mem _ he)
    refine ⟨(e.1, next) :: items, ?_⟩
    rw [List.map_cons, ← hnext]

/-- The stream begins in order: no source lies below another one, so they part. -/
theorem Begun.walking (h : Begun fs filter sources inters stack) (hnested : NotNested sources)
    (hnodup : sources.Nodup) (hsorted : inters.Pairwise fun a b => pathLe a.1 b.1 = true)
    (hstack : stack.Pairwise fun a b => pathLe a.1 b.1 = true) :
    FileSystem.Walking fs filter inters stack := by
  refine ⟨h.allowed, h.ready, hsorted, ?_⟩
  have hne : stack.Pairwise fun a b => a.1 ≠ b.1 :=
    List.pairwise_map.mp (h.paths_perm.nodup_iff.mpr hnodup)
  have hsrc : ∀ e ∈ stack, e.1 ∈ sources := fun e he =>
    h.paths_perm.subset (List.mem_map_of_mem he)
  apply (hstack.and hne).imp_of_mem
  intro a b ha hb hab
  apply comesBefore_of_pathLe hab.1
  intro hle
  exact hab.2 (hnested a.1 (hsrc a ha) b.1 (hsrc b hb) hle)

/-- **What a stream yields** that has begun with its sources. -/
theorem Begun.yields (h : Begun fs filter sources inters stack) (hnested : NotNested sources)
    (hnodup : sources.Nodup)
    (hbelow : ∀ src ∈ sources, Absolute src ∧ StrictPrefix (calculateLcp sources) src)
    (hread : NoReadFails fs filter sources) {emitted : List (Path × Option StreamNode)}
    (hperm : emitted.Perm (fs.pendingItems filter inters stack)) :
    ∃ items : List (Path × StreamNode), emitted = items.map (fun i => (i.1, some i.2)) ∧
      StreamYields fs filter sources items := by
  have hmem : ∀ e ∈ emitted, ∃ next, e.2 = some next ∧ fs.stat e.1 = some next.node ∧
      RightCount fs filter sources e.1 next := fun e he =>
    h.mem_pendingItems hbelow hread (hperm.subset he)
  obtain ⟨items, rfl⟩ := exists_items fun e he => by
    obtain ⟨next, hnext, -⟩ := hmem e he
    exact ⟨next, hnext⟩
  have hfst : (items.map fun i => (i.1, some i.2)).map Prod.fst = items.map Prod.fst := by
    rw [List.map_map]
    rfl
  have hpaths : (items.map Prod.fst).Perm ((fs.pendingItems filter inters stack).map Prod.fst) := by
    rw [← hfst]
    exact hperm.map Prod.fst
  have hitem : ∀ i ∈ items, fs.stat i.1 = some i.2.node ∧ RightCount fs filter sources i.1 i.2 := by
    intro i hi
    obtain ⟨next, heq, hrest⟩ := hmem (i.1, some i.2) (List.mem_map.mpr ⟨i, hi, rfl⟩)
    cases heq
    exact hrest
  refine ⟨items, rfl, hpaths.nodup_iff.mpr (h.nodup_pendingItems hbelow hnested hnodup),
    fun path => ⟨fun hpath => ?_, fun hpath => ?_⟩, fun i hi => (hitem i hi).1,
    fun i hi => (hitem i hi).2, fun i hi hdir => ?_⟩
  · obtain ⟨i, hi, rfl⟩ := List.mem_map.mp hpath
    rcases (hitem i hi).2 with ⟨hinter, -⟩ | ⟨src, hsrc, hle, -⟩
    · exact Or.inl hinter
    · exact Or.inr ⟨src, hsrc, hle⟩
  · rw [hpaths.mem_iff]
    rcases hpath with hinter | ⟨src, hsrc, hle⟩
    · obtain ⟨count, hlisted⟩ := exists_getIntermediatePaths hbelow hinter
      rw [map_fst_pendingItems]
      exact List.mem_append_left _ (List.mem_map_of_mem (h.perm.mem_iff.mpr hlisted))
    · exact h.mem_of_below hsrc hle
  · have hpending := hperm.subset (List.mem_map.mpr ⟨i, hi, rfl⟩)
    rcases List.mem_append.mp hpending with hinter | hwalk
    · obtain ⟨e, he, heq⟩ := List.mem_map.mp hinter
      rw [← congrArg Prod.fst heq]
      exact Or.inl (SourceStream.isIntermediate_of_mem hbelow (h.perm.mem_iff.mp he))
    · obtain ⟨e, -, hmap⟩ := List.mem_flatMap.mp hwalk
      obtain ⟨j, hj, heq⟩ := List.mem_map.mp hmap
      have hnode : j.2 = i.2 := Option.some.inj (congrArg Prod.snd heq)
      rw [← hnode] at hdir ⊢
      exact Or.inr (numChildren_of_not_isDir hj hdir)

end Counts

/-! ## The stream -/

/-- The filter of the stream: the exclude paths, sorted. -/
def excludeFilter (excludes : List Path) : PathFilter :=
  Filter.PathFilter.toPathFilter none (some (sortPaths excludes))

/-- The source paths that are not excluded. -/
def allowedPaths (excludes paths : List Path) : List Path :=
  paths.filter fun path => (excludeFilter excludes).allow path

/-- `FSNodeStream::from_paths`, and what the stream yields. The fuel bounds the rounds of its loop.
-/
def fsNodeStream (fs : FileSystem) (paths excludes : List Path) (fuel : Nat) :
    Option (List (Path × Option StreamNode)) :=
  (fs.fromPaths (excludeFilter excludes) paths).map fun s =>
    fs.walkLoop (excludeFilter excludes) fuel s.1 s.2

/-- **The stream announces what it yields.** The sources that are not excluded, everything below them
that is not excluded, and the directories strictly between them and their common root come once each,
in the order of their paths, each with the number of the paths in it. -/
theorem node_stream_announces (fs : FileSystem) (paths excludes : List Path)
    (habs : ∀ path ∈ paths, Absolute path) (hslash : [.rootDir] ∉ paths) (hnodup : paths.Nodup)
    (hnested : NotNested paths)
    (hread : NoReadFails fs (excludeFilter excludes) (allowedPaths excludes paths)) :
    ∃ items : List (Path × StreamNode),
      (∃ fuel₀, ∀ fuel, fuel₀ ≤ fuel →
        fsNodeStream fs paths excludes fuel = some (items.map fun i => (i.1, some i.2))) ∧
      items.Pairwise (fun i j => PathLt i.1 j.1) ∧
      (∀ path, path ∈ items.map Prod.fst ↔
        IsIntermediate (calculateLcp (allowedPaths excludes paths)) (allowedPaths excludes paths)
          path ∨
        ∃ src ∈ allowedPaths excludes paths, fs.Below (excludeFilter excludes) src path) ∧
      ∀ i ∈ items, fs.stat i.1 = some i.2.node ∧
        i.2.numChildren = (items.filter fun j => extractParent j.1 = some i.1).length := by
  obtain ⟨sources, hsources⟩ : ∃ sources, sources = allowedPaths excludes paths := ⟨_, rfl⟩
  rw [← hsources] at hread ⊢
  have hsub : ∀ src ∈ sources, src ∈ paths := by
    intro src hsrc
    rw [hsources] at hsrc
    exact (List.mem_filter.mp hsrc).1
  have hnested' : NotNested sources := fun src hsrc src' hsrc' =>
    hnested src (hsub src hsrc) src' (hsub src' hsrc')
  have hnodup' : sources.Nodup := by
    rw [hsources]
    exact hnodup.filter _
  have hslash' : [.rootDir] ∉ sources := fun h => hslash (hsub _ h)
  have hbelow : ∀ src ∈ sources, Absolute src ∧ StrictPrefix (calculateLcp sources) src :=
    fun src hsrc => ⟨habs src (hsub src hsrc), calculateLcp_lt (fun s hs => habs s (hsub s hs))
      hslash' hnodup' hnested' src hsrc⟩
  obtain ⟨inters, stack, hfrom, hbegun, hsorted, hstack⟩ := exists_begun hsources hbelow hread hslash'
  have hwalking := hbegun.walking hnested' hnodup' hsorted hstack
  have hpending := hbegun.nodup_pendingItems hbelow hnested' hnodup'
  obtain ⟨fuel₀, hfuel₀⟩ : ∃ fuel₀,
      (fs.pendingItems (excludeFilter excludes) inters stack).length < fuel₀ := ⟨_, Nat.lt_succ_self _⟩
  obtain ⟨items, hitems, hyields⟩ := hbegun.yields hnested' hnodup' hbelow hread
    (FileSystem.walkLoop_perm hbegun.allowed hbegun.ready hfuel₀)
  refine ⟨items, ⟨fuel₀, ?_⟩, ?_, hyields.mem, ?_⟩
  · intro fuel hfuel
    rw [fsNodeStream, hfrom, Option.map_some, ← hitems,
      hwalking.walkLoop_fuel hpending (hfuel₀.trans_le hfuel) hfuel₀]
  · have hordered := hwalking.pairwise_walkLoop hfuel₀
    rw [hitems] at hordered
    exact ((List.pairwise_map.mp hordered).and (List.pairwise_map.mp hyields.nodup)).imp id
  · intro i hi
    exact ⟨hyields.found i hi, hyields.numChildren_eq hnested' hbelow hread hi⟩

section Sample

/-- The paths of a small file system: `/b/d` with `x` and `y`, and `/e`. -/
def treeEntries : List (Path × Node) :=
  [([.rootDir], { name := "/", nodeType := .directory }),
   ([.rootDir, .normal [0x62]], { name := "b", nodeType := .directory }),
   ([.rootDir, .normal [0x62], .normal [0x64]], { name := "d", nodeType := .directory }),
   ([.rootDir, .normal [0x62], .normal [0x64], .normal [0x78]], { name := "x" }),
   ([.rootDir, .normal [0x62], .normal [0x64], .normal [0x79]], { name := "y" }),
   ([.rootDir, .normal [0x65]], { name := "e" })]

/-- The names in its directories. -/
def treeNames : List (Path × List Bytes) :=
  [([.rootDir], [[0x65], [0x62]]), ([.rootDir, .normal [0x62]], [[0x64]]),
   ([.rootDir, .normal [0x62], .normal [0x64]], [[0x79], [0x78]])]

theorem mem_of_find?_fst {α : Type} {l : List (Path × α)} {path : Path} {a : α}
    (h : (l.find? fun e => e.1 = path).map Prod.snd = some a) : (path, a) ∈ l := by
  obtain ⟨e, hfind, rfl⟩ := Option.map_eq_some_iff.mp h
  have hpath : e.1 = path := by simpa using List.find?_some hfind
  rw [← hpath]
  exact List.mem_of_find?_eq_some hfind

def treeFs : FileSystem where
  stat path := (treeEntries.find? fun e => e.1 = path).map Prod.snd
  readDir path := (treeNames.find? fun e => e.1 = path).map Prod.snd
  nodup h := by
    have hall : ∀ e ∈ treeNames, e.2.Nodup := by decide
    exact hall _ (mem_of_find?_fst h)
  named h hname := by
    have hall : ∀ e ∈ treeEntries, ∀ name ∈ fileName e.1, e.2.name = toStringLossy name := by decide
    exact hall _ (mem_of_find?_fst h) _ hname
  bare h := by
    have hall : ∀ e ∈ treeEntries, e.2.blobs = none ∧ e.2.tree = none := by decide
    exact hall _ (mem_of_find?_fst h)
  height := 4
  finite h _ := by
    have hall : ∀ e ∈ treeNames, e.1.length < 4 := by decide
    exact hall _ (mem_of_find?_fst h)
  empty := ⟨rfl, rfl⟩

/-- Nothing that is below a path of the file system fails to be read. -/
theorem readable_treeFs {filter : PathFilter} {top : Path} (htop : top ∈ treeEntries.map Prod.fst) :
    treeFs.Readable filter top := by
  have hstat : ∀ path ∈ treeEntries.map Prod.fst, ∃ node, treeFs.stat path = some node := by
    intro path hpath
    have hall : ∀ path ∈ treeEntries.map Prod.fst, (treeFs.stat path).isSome = true := by decide
    exact Option.isSome_iff_exists.mp (hall path hpath)
  have hentry : ∀ path, treeFs.Below filter top path → path ∈ treeEntries.map Prod.fst := by
    intro path h
    induction h with
    | top => exact htop
    | entry _ _ _ hread hname _ _ =>
      have hall : ∀ e ∈ treeNames, ∀ name ∈ e.2,
          e.1 ++ [.normal name] ∈ treeEntries.map Prod.fst := by decide
      exact hall _ (mem_of_find?_fst hread) _ hname
  refine ⟨fun path h => hstat path (hentry path h), fun path node h hnode hdir => ?_⟩
  have hall : ∀ e ∈ treeEntries, e.2.isDir = true → (treeFs.readDir e.1).isSome = true := by decide
  exact Option.isSome_iff_exists.mp (hall _ (mem_of_find?_fst hnode) hdir)

/-- No read fails, where the sources are paths of the file system. -/
theorem noReadFails_treeFs {filter : PathFilter} {sources : List Path}
    (hsources : ∀ src ∈ sources, src ∈ treeEntries.map Prod.fst)
    (habove : ∀ dir ∈ intermediates (calculateLcp sources) sources,
      (treeFs.stat dir).isSome = true) : NoReadFails treeFs filter sources :=
  ⟨fun src hsrc => readable_treeFs (hsources src hsrc), fun dir hdir =>
    Option.isSome_iff_exists.mp (habove dir (SourceStream.mem_intermediates.mpr hdir))⟩

/-- The stream over `/b/d` and `/e` without `/b/d/y`. -/
theorem node_stream_of_tree : ∃ items : List (Path × StreamNode),
    (∃ fuel₀, ∀ fuel, fuel₀ ≤ fuel → fsNodeStream treeFs
      [[.rootDir, .normal [0x65]], [.rootDir, .normal [0x62], .normal [0x64]]]
      [[.rootDir, .normal [0x62], .normal [0x64], .normal [0x79]]] fuel =
        some (items.map fun i => (i.1, some i.2))) ∧
    items.Pairwise (fun i j => PathLt i.1 j.1) ∧
    [.rootDir, .normal [0x62]] ∈ items.map Prod.fst ∧
    ∀ i ∈ items, i.2.numChildren = (items.filter fun j => extractParent j.1 = some i.1).length := by
  have hallowed : allowedPaths [[.rootDir, .normal [0x62], .normal [0x64], .normal [0x79]]]
      [[.rootDir, .normal [0x65]], [.rootDir, .normal [0x62], .normal [0x64]]] =
        [[.rootDir, .normal [0x65]], [.rootDir, .normal [0x62], .normal [0x64]]] := by
    decide
  obtain ⟨items, hyields, hsorted, hmem, hitems⟩ := node_stream_announces treeFs
    [[.rootDir, .normal [0x65]], [.rootDir, .normal [0x62], .normal [0x64]]]
    [[.rootDir, .normal [0x62], .normal [0x64], .normal [0x79]]] (by
      intro path hpath
      rcases List.mem_pair.mp hpath with rfl | rfl
      · exact ⟨[[0x65]], rfl⟩
      · exact ⟨[[0x62], [0x64]], rfl⟩) (by decide) (by decide) (by
      intro src hsrc src' hsrc'
      rcases List.mem_pair.mp hsrc with rfl | rfl <;> rcases List.mem_pair.mp hsrc' with rfl | rfl
        <;> decide) (by
      rw [hallowed]
      exact noReadFails_treeFs (by decide) (by decide))
  rw [hallowed] at hmem
  exact ⟨items, hyields, hsorted, (hmem _).mpr (Or.inl (by decide)), fun i hi => (hitems i hi).2⟩

/-- **An excluded source is not emitted**, nor is the directory on the way to it, though no read
fails. -/
theorem excluded_source_not_emitted :
    NoReadFails treeFs (excludeFilter [[.rootDir, .normal [0x62], .normal [0x64]]])
      [[.rootDir, .normal [0x65]], [.rootDir, .normal [0x62], .normal [0x64]]] ∧
    IsIntermediate
      (calculateLcp [[.rootDir, .normal [0x65]], [.rootDir, .normal [0x62], .normal [0x64]]])
      [[.rootDir, .normal [0x65]], [.rootDir, .normal [0x62], .normal [0x64]]]
      [.rootDir, .normal [0x62]] ∧
    ∀ fuel, fsNodeStream treeFs
      [[.rootDir, .normal [0x65]], [.rootDir, .normal [0x62], .normal [0x64]]]
      [[.rootDir, .normal [0x62], .normal [0x64]]] (fuel + 1) =
        some [([.rootDir, .normal [0x65]], some ⟨{ name := "e" }, 0⟩)] := by
  refine ⟨noReadFails_treeFs (by decide) (by decide), by decide, fun fuel => ?_⟩
  have hfrom : treeFs.fromPaths (excludeFilter [[.rootDir, .normal [0x62], .normal [0x64]]])
      [[.rootDir, .normal [0x65]], [.rootDir, .normal [0x62], .normal [0x64]]] =
        some ([], [([.rootDir, .normal [0x65]], { name := "e" })]) := by
    decide
  rw [fsNodeStream, hfrom, Option.map_some, FileSystem.walkLoop.eq_def]
  cases fuel <;> rfl

end Sample

end Mapache
