import Mapache.Archiver.Processor
import Mapache.Archiver.TreeOrder
import Mapache.Fs.Walk

/-!
# What a snapshot run stores of its sources

A run of `cmd_snapshot` over source paths: the paths are deduplicated and sorted, the stream walks
over them, each item is processed, and the items reach the tree serializer in some order. `Stores`
says which tree a successful run can store, and `NodeAt` that a tree has exactly one node at a path.

The stream of a run over sources that are not nested is a consistent stream (`Placed.toStream`), so
the stored tree has everything below the sources (`stored_tree_contains_sources`). The root of the
file system as a source has no name and no parent: the walk looks for it at the empty path and finds
nothing there.
-/

set_option autoImplicit false

namespace Mapache

open Lib

/-! ## The nodes of a stored tree -/

/-- The ID is that of the serialized nodes. -/
def TreeEnv.Encodes (env : TreeEnv) (id : ID) (nodes : List Node) : Prop :=
  ∃ bytes, env.codec.toVec nodes = some bytes ∧ env.fromContent bytes = id

/-- The tree has exactly one node at the path. -/
inductive NodeAt (env : TreeEnv) : ID → List String → Node → Prop where
  | here {id : ID} {nodes : List Node} {name : String} {node : Node} : env.Encodes id nodes →
      (nodes.filter fun n => n.name = name) = [node] → NodeAt env id [name] node
  | inside {id sub : ID} {nodes : List Node} {name : String} {names : List String} {dir node : Node} :
      env.Encodes id nodes → (nodes.filter fun n => n.name = name) = [dir] → dir.tree = some sub →
      NodeAt env sub names node → NodeAt env id (name :: names) node

/-- Among nodes with distinct names only one has a given name. -/
theorem filter_name_eq {nodes nodes' : List Node} {node : Node} (hperm : nodes'.Perm nodes)
    (hnodup : (nodes.map Node.name).Nodup) (hmem : node ∈ nodes) :
    (nodes'.filter fun n => n.name = node.name) = [node] := by
  refine List.perm_singleton.mp ((List.perm_ext_iff_of_nodup ?_ (List.nodup_singleton _)).mpr
    fun n => ?_)
  · exact (hperm.nodup_iff.mpr hnodup.of_map).filter _
  · rw [List.mem_filter, List.mem_singleton, decide_eq_true_iff, hperm.mem_iff]
    constructor
    · rintro ⟨hn, hname⟩
      exact List.inj_on_of_nodup_map hnodup hn hmem hname
    · rintro rfl
      exact ⟨hmem, rfl⟩

namespace SourceStream

variable {S : SourceStream} {env : TreeEnv} {own : Path → Node} {dir : Path}

/-- **The tree of a stream has the nodes of everything below the directory.** -/
theorem nodeAt_treeOf (hnames : S.NamesDistinct) (hnamed : S.Named own)
    (hser : ∀ dir, S.Dir dir → S.Serializes env own dir) (hdir : S.Dir dir) {rest : List Bytes}
    (hne : rest ≠ []) (hpath : dir ++ rest.map .normal ∈ S.nodes) :
    NodeAt env (S.treeOf env own dir) (rest.map toStringLossy)
      (S.final env own (dir ++ rest.map .normal)) := by
  -- one name after the other, each with its directory
  induction rest generalizing dir with
  | nil => exact absurd rfl hne
  | cons name rest ih =>
    obtain ⟨child, hchild⟩ : ∃ child, child = dir ++ [Component.normal name] := ⟨_, rfl⟩
    have hrest : dir ++ (name :: rest).map .normal = child ++ rest.map .normal := by
      rw [hchild, List.map_cons, List.append_assoc, List.singleton_append]
    rw [hrest] at hpath ⊢
    have hroot : StrictPrefix S.root child := by
      rw [hchild]
      exact .prefix_trans hdir.root_le (.append_singleton dir _)
    have hnode : child ∈ S.nodes := mem_nodes_of_between hpath hroot (List.prefix_append _ _)
    have hname : (S.final env own child).name = toStringLossy name :=
      final_name hnamed hnode (by rw [hchild, fileName_append])
    have hmem : child ∈ S.children dir :=
      mem_children.mpr ⟨hnode, by rw [hchild, List.dropLast_concat]⟩
    obtain ⟨id, hid⟩ := Option.isSome_iff_exists.mp (hser dir hdir)
    have htree : S.treeOf env own dir = id := by rw [treeOf_eq hdir, hid, Option.getD_some]
    have henc : env.Encodes id (env.sort ((S.children dir).map (S.final env own))) := by
      rw [TreeEnv.saveToStore] at hid
      exact Option.map_eq_some_iff.mp hid
    have hfilter := filter_name_eq (env.perm _) (nodup_final_name env hnames hnamed hdir)
      (List.mem_map_of_mem hmem)
    rw [hname] at hfilter
    rw [htree, List.map_cons]
    cases rest with
    | nil =>
      simp only [List.map_nil, List.append_nil]
      exact .here henc hfilter
    | cons name' rest =>
      have hsub : S.Dir child := dir_of_between hpath hroot
        (.of_length_lt (List.prefix_append _ _) (by simp))
      refine .inside henc hfilter ?_ (ih hsub (by simp) hpath)
      rw [final, if_pos hsub]

end SourceStream

/-! ## Runs -/

/-- The source paths of a run: deduplicated, not excluded, in their order. -/
def sourcePaths (filter : PathFilter) (paths : List Path) : List Path :=
  sortPaths ((paths.filter fun path => filter.allow path).dedup)

/-- The item that the processor makes of a node of the stream. The node of the parent snapshot and
what the reading of a file gives are open. -/
def Processed (next item : StreamNode) : Prop :=
  ∃ prev stored, processItemSync (Option.join prev) (some next) (nodeDiff prev next) stored =
    some (some item)

/-- The items that the coordinator makes of the stream: an error is only reported. -/
inductive Processes : List (Path × Option StreamNode) → List (Path × StreamNode) → Prop where
  | nil : Processes [] []
  | skip {path : Path} {emitted : List (Path × Option StreamNode)} {items : List (Path × StreamNode)} :
      Processes emitted items → Processes ((path, none) :: emitted) items
  | item {path : Path} {next item : StreamNode} {emitted : List (Path × Option StreamNode)}
      {items : List (Path × StreamNode)} : Processed next item → Processes emitted items →
      Processes ((path, some next) :: emitted) ((path, item) :: items)

/-- A successful run over the source paths can store the tree. The fuel bounds the walk. -/
def Stores (env : TreeEnv) (fs : FileSystem) (filter : PathFilter) (paths : List Path) (fuel : Nat)
    (result : Option ID) : Prop :=
  ∃ inters stack items order,
    fs.fromPaths filter (sourcePaths filter paths) = some (inters, stack) ∧
      Processes (fs.walkLoop filter fuel inters stack) items ∧ order.Perm items ∧
      TreeSerializer.serialize env (.new (calculateLcp (sourcePaths filter paths))
        (getIntermediatePaths (calculateLcp (sourcePaths filter paths)) (sourcePaths filter paths)))
        order = some result

/-- The names on the way from the root to a path. -/
def relativeNames (root path : Path) : List String :=
  (path.drop root.length).map fun c => toStringLossy c.asOsStr

/-- The tree has every path below the sources that is not excluded, exactly once. -/
def ContainsSources (env : TreeEnv) (fs : FileSystem) (filter : PathFilter) (sources : List Path)
    (id : ID) : Prop :=
  ∀ src ∈ sources, ∀ path found, fs.Below filter src path → fs.stat path = some found →
    ∃ node, NodeAt env id (relativeNames (calculateLcp sources) path) node ∧
      node.nodeType = found.nodeType

/-- No read of the run fails. -/
structure NoReadFails (fs : FileSystem) (filter : PathFilter) (sources : List Path) : Prop where
  below : ∀ src ∈ sources, fs.Readable filter src
  above : ∀ dir, IsIntermediate (calculateLcp sources) sources dir → ∃ node, fs.stat dir = some node

/-- A path that the snapshot should have: below a source, or on the way to one. -/
def Requested (fs : FileSystem) (filter : PathFilter) (sources : List Path) (path : Path) : Prop :=
  IsIntermediate (calculateLcp sources) sources path ∨ ∃ src ∈ sources, fs.Below filter src path

/-- No source lies at or below another one. -/
def NotNested (sources : List Path) : Prop :=
  ∀ src ∈ sources, ∀ src' ∈ sources, src <+: src' → src = src'

/-- Sources that the stream and the serializer are right about. -/
structure Regular (fs : FileSystem) (filter : PathFilter) (sources : List Path) : Prop where
  slash : [.rootDir] ∉ sources
  not_nested : ∀ src ∈ sources, ∀ src' ∈ sources, src <+: src' → src = src'
  /-- The directories on the way to a source are no symbolic links. -/
  isDir : ∀ dir node, IsIntermediate (calculateLcp sources) sources dir → fs.stat dir = some node →
    node.isDir = true
  names : ∀ p q, Requested fs filter sources p → Requested fs filter sources q →
    p.dropLast = q.dropLast →
    toStringLossy (SourceStream.lastName p) = toStringLossy (SourceStream.lastName q) → p = q

section Processing

variable {next item : StreamNode}

/-- Processing an item keeps what the serializer looks at. -/
theorem Processed.keeps (h : Processed next item) :
    item.numChildren = next.numChildren ∧ item.node.name = next.node.name ∧
      item.node.nodeType = next.node.nodeType ∧ item.node.tree = next.node.tree := by
  obtain ⟨prev, stored, h⟩ := h
  cases hdiff : nodeDiff prev next with
  | deleted =>
    rw [hdiff, processItemSync] at h
    obtain ⟨_, -, hnone⟩ := Option.map_eq_some_iff.mp h
    cases hnone
  | unchanged =>
    -- the metadata and the blobs of the parent
    rw [hdiff, processItemSync, Option.bind_some] at h
    obtain ⟨p, -, heq⟩ := Option.map_eq_some_iff.mp h
    cases heq
    exact ⟨rfl, rfl, rfl, rfl⟩
  | new | changed =>
    rw [hdiff] at h
    cases Option.some.inj (Option.some.inj h)
    split
    · cases stored <;> exact ⟨rfl, rfl, rfl, rfl⟩
    · exact ⟨rfl, rfl, rfl, rfl⟩

/-- The items come from the nodes of the stream, one from each. -/
theorem Processes.spec {emitted : List (Path × Option StreamNode)} {items : List (Path × StreamNode)}
    (h : Processes emitted items) (hnodes : ∀ e ∈ emitted, ∃ next, e.2 = some next) :
    items.map Prod.fst = emitted.map Prod.fst ∧
      ∀ i ∈ items, ∃ next, (i.1, some next) ∈ emitted ∧ Processed next i.2 := by
  induction h with
  | nil => exact ⟨rfl, fun i hi => by cases hi⟩
  | skip _ _ =>
    obtain ⟨next, hnext⟩ := hnodes _ List.mem_cons_self
    cases hnext
  | @item path next item emitted items hitem _ ih =>
    obtain ⟨hfst, hfrom⟩ := ih fun e he => hnodes e (List.mem_cons_of_mem _ he)
    refine ⟨congrArg (List.cons path) hfst, fun i hi => ?_⟩
    rcases List.mem_cons.mp hi with rfl | hi
    · exact ⟨next, List.mem_cons_self, hitem⟩
    · obtain ⟨next', hmem, hproc⟩ := hfrom i hi
      exact ⟨next', List.mem_cons_of_mem _ hmem, hproc⟩

end Processing

/-! ## The stream of a run -/

/-- The count that an item of the walk should be announced with. -/
def RightCount (fs : FileSystem) (filter : PathFilter) (sources : List Path) (path : Path)
    (next : StreamNode) : Prop :=
  (IsIntermediate (calculateLcp sources) sources path ∧
    (path, next.numChildren) ∈ (getIntermediatePaths (calculateLcp sources) sources).2) ∨
  ∃ src ∈ sources, fs.Below filter src path ∧
    (next.node.isDir = true → next.numChildren = fs.numChildren filter path)

/-- The items have the paths that the snapshot should have, each once, with the nodes of the file
system. -/
structure Placed (fs : FileSystem) (filter : PathFilter) (sources : List Path)
    (items : List (Path × StreamNode)) : Prop where
  nodup : (items.map Prod.fst).Nodup
  requested : ∀ i ∈ items, Requested fs filter sources i.1
  found : ∀ i ∈ items, ∃ node, fs.stat i.1 = some node ∧ i.2.node.name = node.name ∧
    i.2.node.nodeType = node.nodeType ∧ i.2.node.tree = node.tree
  all : ∀ src ∈ sources, ∀ path, fs.Below filter src path → path ∈ items.map Prod.fst

section Placed

variable {fs : FileSystem} {filter : PathFilter} {sources : List Path}
  {items : List (Path × StreamNode)}
  {src path dir : Path} {node : Node}

theorem absolute_of_below (habs : Absolute src) (h : fs.Below filter src path) : Absolute path := by
  induction h with
  | top => exact habs
  | @entry _ _ _ name _ _ _ _ _ _ ih =>
    obtain ⟨names, rfl⟩ := ih
    exact ⟨names ++ [name], by simp⟩

/-- A path lies below one source only. -/
theorem NotNested.source_unique {src' : Path} (h : NotNested sources) (hsrc : src ∈ sources)
    (hsrc' : src' ∈ sources) (hle : src <+: path) (hle' : src' <+: path) : src = src' := by
  rcases prefix_or_strictPrefix hle hle' with hbelow | hbelow
  · exact h src hsrc src' hsrc' hbelow
  · exact (h src' hsrc' src hsrc hbelow.1).symm

/-- Nothing at or below a source is on the way to one. -/
theorem NotNested.not_intermediate {root : Path} (h : NotNested sources) (hsrc : src ∈ sources)
    (hle : src <+: path) : ¬ IsIntermediate root sources path := by
  rintro ⟨-, src', hsrc', hlt⟩
  have hlt' := StrictPrefix.prefix_trans hle hlt
  exact hlt'.2 (h src hsrc src' hsrc' hlt'.1)

theorem Regular.notNested (hreg : Regular fs filter sources) : NotNested sources := hreg.not_nested

/-- What is requested at or below a source lies below it in the file system. -/
theorem Regular.below_of_requested (hreg : Regular fs filter sources) (hsrc : src ∈ sources)
    (hle : src <+: path) (h : Requested fs filter sources path) : fs.Below filter src path := by
  rcases h with hinter | ⟨src', hsrc', hbelow⟩
  · exact absurd hinter (hreg.notNested.not_intermediate hsrc hle)
  · rw [hreg.notNested.source_unique hsrc hsrc' hle hbelow.le]
    exact hbelow

/-- The items of a run over regular sources, announced with their children, are a consistent stream.
-/
def Placed.toStream (h : Placed fs filter sources items) (hreg : Regular fs filter sources)
    (hbelow : ∀ src ∈ sources, Absolute src ∧ StrictPrefix (calculateLcp sources) src)
    (hcount : ∀ i ∈ items, i.2.node.isDir = true →
      i.2.numChildren = (streamChildren (calculateLcp sources) sources items i.1).length) :
    SourceStream where
  root := calculateLcp sources
  sources := sources
  items := items
  below := hbelow
  not_nested := hreg.not_nested
  nodup := h.nodup
  emitted src hsrc := h.all src hsrc src .top
  absolute i hi := by
    rcases h.requested i hi with ⟨hroot, src, hsrc, hlt⟩ | ⟨src, hsrc, hpath⟩
    · exact (hbelow src hsrc).1.of_le hlt.1 hroot.ne_nil
    · exact absolute_of_below (hbelow src hsrc).1 hpath
  slash i hi hpath := by
    obtain ⟨node, hstat, -, htype, -⟩ := h.found i hi
    rcases h.requested i hi with hinter | ⟨src, hsrc, hle⟩
    · have hdir := hreg.isDir i.1 node hinter hstat
      rw [Node.isDir, htype]
      exact hdir
    · -- the source would be the root of the file system
      obtain ⟨names, rfl⟩ := (hbelow src hsrc).1
      have hlen := hle.le.length_le
      rw [hpath, List.length_cons, List.length_map, List.length_singleton] at hlen
      rw [List.length_eq_zero_iff.mp (by omega : names.length = 0)] at hsrc
      exact absurd hsrc hreg.slash
  place i hi := by
    obtain ⟨node, hstat, -, htype, -⟩ := h.found i hi
    rcases h.requested i hi with hinter | ⟨src, hsrc, hpath⟩
    · have hdir := hreg.isDir i.1 node hinter hstat
      refine Or.inr ⟨?_, hinter⟩
      rw [Node.isDir, htype]
      exact hdir
    · exact Or.inl ⟨src, hsrc, hpath.le⟩
  parent i hi src hsrc hlt := by
    have hpath := hreg.below_of_requested hsrc hlt.1 (h.requested i hi)
    generalize i.1 = path at hpath hlt ⊢
    cases hpath with
    | top => exact absurd rfl hlt.2
    | @entry path node _ _ habove hstat hdir _ _ _ =>
      obtain ⟨j, hj, rfl⟩ := List.mem_map.mp (h.all src hsrc path habove)
      obtain ⟨node', hstat', -, htype, -⟩ := h.found j hj
      rw [hstat] at hstat'
      cases hstat'
      refine ⟨j, hj, List.dropLast_concat.symm, ?_⟩
      rw [Node.isDir, htype]
      exact hdir
  named i hi name hname := by
    obtain ⟨node, hstat, hnode, -, -⟩ := h.found i hi
    rw [hnode]
    exact fs.named hstat hname
  announced := hcount
  bare i hi _ := by
    obtain ⟨node, hstat, -, -, htree⟩ := h.found i hi
    rw [htree]
    exact (fs.bare hstat).2

/-- Only the paths of the items matter to what is in a directory. -/
theorem streamChildren_congr {root : Path} {items' : List (Path × StreamNode)}
    (h : items'.map Prod.fst = items.map Prod.fst) (dir : Path) :
    streamChildren root sources items' dir = streamChildren root sources items dir := by
  rw [streamChildren, streamChildren, streamPaths, streamPaths, h]

theorem mem_streamChildren {root : Path} :
    path ∈ streamChildren root sources items dir ↔
      (path ∈ items.map Prod.fst ∨ IsIntermediate root sources path) ∧ path.dropLast = dir := by
  simp only [streamChildren, streamPaths, List.mem_filter, List.mem_dedup, List.mem_append,
    SourceStream.mem_intermediates, decide_eq_true_iff]

/-- **A directory below a source is announced with the number of its children.** -/
theorem Placed.numChildren_eq (h : Placed fs filter sources items) (hreg : Regular fs filter sources)
    (hread : NoReadFails fs filter sources) (hsrc : src ∈ sources) (hne : src ≠ [])
    (hbelow : fs.Below filter src dir) (hstat : fs.stat dir = some node) (hdir : node.isDir = true) :
    fs.numChildren filter dir = (streamChildren (calculateLcp sources) sources items dir).length := by
  obtain ⟨names, children, hnames, hscan, hnodup, hmem, -⟩ :=
    FileSystem.scan_spec (hread.below src hsrc) hbelow hstat hdir
  have hperm : (children.map fun c => dir ++ [Component.normal c.1]).Perm
      (streamChildren (calculateLcp sources) sources items dir) := by
    have hnodup' : (streamChildren (calculateLcp sources) sources items dir).Nodup :=
      (List.nodup_dedup _).filter _
    refine (List.perm_ext_iff_of_nodup ?_ hnodup').mpr fun q => ?_
    · have hinj : Function.Injective fun name => dir ++ [Component.normal name] := by
        intro a b heq
        simpa using heq
      have hmap := hnodup.map hinj
      rw [List.map_map] at hmap
      exact hmap
    · rw [List.mem_map, mem_streamChildren]
      constructor
      · rintro ⟨c, hc, rfl⟩
        obtain ⟨hname, hallow⟩ := (hmem c.1).mp (List.mem_map_of_mem hc)
        exact ⟨Or.inl (h.all src hsrc _ (.entry hbelow hstat hdir hnames hname hallow)),
          List.dropLast_concat⟩
      · rintro ⟨hq, rfl⟩
        -- the path is an entry of the directory
        have hle : src <+: q := hbelow.le.trans (List.dropLast_prefix q)
        have hreq : Requested fs filter sources q := by
          rcases hq with hitem | hinter
          · obtain ⟨i, hi, rfl⟩ := List.mem_map.mp hitem
            exact h.requested i hi
          · exact Or.inl hinter
        have hqbelow := hreg.below_of_requested hsrc hle hreq
        cases hqbelow with
        | top => exact absurd hbelow.le (StrictPrefix.dropLast hne).not_le_self
        | @entry dir' _ names' name _ _ _ hnames' hname hallow =>
          rw [List.dropLast_concat] at hnames hmem
          rw [hnames] at hnames'
          cases hnames'
          obtain ⟨c, hc, hcname⟩ := List.mem_map.mp ((hmem name).mpr ⟨hname, hallow⟩)
          exact ⟨c, hc, by rw [hcname, List.dropLast_concat]⟩
  rw [FileSystem.numChildren, hscan, Option.getD_some, ← hperm.length_eq, List.length_map]

/-- **Every directory of a run is announced with the number of its children.** -/
theorem Placed.announced (h : Placed fs filter sources items) (hreg : Regular fs filter sources)
    (hread : NoReadFails fs filter sources)
    (hbelow : ∀ src ∈ sources, Absolute src ∧ StrictPrefix (calculateLcp sources) src)
    (hcount : ∀ i ∈ items, RightCount fs filter sources i.1 i.2) :
    ∀ i ∈ items, i.2.node.isDir = true →
      i.2.numChildren = (streamChildren (calculateLcp sources) sources items i.1).length := by
  intro i hi hdir
  rcases hcount i hi with ⟨-, hmem⟩ | ⟨src, hsrc, hpath, hnum⟩
  · -- the same items with the right counts are a stream, whatever the counts of the items are
    obtain ⟨items₀, hitems₀⟩ : ∃ items₀, items₀ = items.map fun j => (j.1, (⟨j.2.node,
        (streamChildren (calculateLcp sources) sources items j.1).length⟩ : StreamNode)) := ⟨_, rfl⟩
    have hfst : items₀.map Prod.fst = items.map Prod.fst := by
      rw [hitems₀, List.map_map]
      rfl
    have hmem₀ : ∀ j ∈ items₀, ∃ k ∈ items, k.1 = j.1 ∧ k.2.node = j.2.node ∧
        j.2.numChildren = (streamChildren (calculateLcp sources) sources items j.1).length := by
      intro j hj
      rw [hitems₀] at hj
      obtain ⟨k, hk, rfl⟩ := List.mem_map.mp hj
      exact ⟨k, hk, rfl, rfl, rfl⟩
    have hplaced : Placed fs filter sources items₀ := by
      refine ⟨hfst ▸ h.nodup, fun j hj => ?_, fun j hj => ?_, fun src hsrc path hpath => ?_⟩
      · obtain ⟨k, hk, heq, -⟩ := hmem₀ j hj
        exact heq ▸ h.requested k hk
      · obtain ⟨k, hk, heq, hnode, -⟩ := hmem₀ j hj
        rw [← heq, ← hnode]
        exact h.found k hk
      · exact hfst ▸ h.all src hsrc path hpath
    obtain ⟨S, hS⟩ : ∃ S, S = hplaced.toStream hreg hbelow fun j hj _ => by
      obtain ⟨-, -, -, -, hlen⟩ := hmem₀ j hj
      rw [hlen, streamChildren_congr hfst] := ⟨_, rfl⟩
    have hroot : S.root = calculateLcp sources := by rw [hS]; rfl
    have hsources : S.sources = sources := by rw [hS]; rfl
    have hchildren : S.children i.1 = streamChildren (calculateLcp sources) sources items i.1 := by
      rw [← streamChildren_congr hfst, hS]
      rfl
    rw [← hchildren]
    rw [← hroot, ← hsources] at hmem
    exact (SourceStream.mem_getIntermediatePaths.mp hmem).2
  · obtain ⟨node, hstat, -, htype, -⟩ := h.found i hi
    have hdir' : node.isDir = true := by
      rw [Node.isDir, ← htype]
      exact hdir
    rw [hnum hdir]
    exact h.numChildren_eq hreg hread hsrc (hbelow src hsrc).2.ne_nil hpath hstat hdir'

end Placed

/-! ## The walk over the sources -/

section Walk

variable {fs : FileSystem} {filter : PathFilter} {paths sources : List Path} {src : Path}
  {inters : List (Path × Nat)} {stack : List (Path × Node)}

theorem mem_sourcePaths : src ∈ sourcePaths filter paths ↔ src ∈ paths ∧ filter.allow src = true := by
  rw [sourcePaths, mem_sortPaths, List.mem_dedup, List.mem_filter]

theorem nodup_sourcePaths : (sourcePaths filter paths).Nodup :=
  (List.perm_insertionSort _ _).nodup_iff.mpr (List.nodup_dedup _)

theorem stackPath_eq (habs : Absolute src) (hslash : src ≠ [.rootDir]) :
    FileSystem.stackPath src = src := by
  rcases habs.cases_last with hroot | ⟨name, hname, -⟩
  · exact absurd hroot hslash
  · rw [hname, FileSystem.stackPath, fileName_append, extractParent_append, Option.getD_some]

/-- The stream starts with the sources on the stack, in some order, and the directories on the way
to them. -/
structure Begun (fs : FileSystem) (filter : PathFilter) (sources : List Path)
    (inters : List (Path × Nat)) (stack : List (Path × Node)) : Prop where
  perm : inters.Perm (getIntermediatePaths (calculateLcp sources) sources).2
  paths_perm : (stack.map Prod.fst).Perm sources
  allowed : ∀ e ∈ inters, filter.allow e.1 = true
  ready : ∀ e ∈ stack, fs.Ready filter e

/-- The stream starts with the sources on the stack, and the directories on the way to them. -/
structure Started (fs : FileSystem) (filter : PathFilter) (sources : List Path)
    (inters : List (Path × Nat)) (stack : List (Path × Node)) : Prop where
  perm : inters.Perm (getIntermediatePaths (calculateLcp sources) sources).2
  paths_eq : stack.map Prod.fst = sources
  allowed : ∀ e ∈ inters, filter.allow e.1 = true
  ready : ∀ e ∈ stack, fs.Ready filter e

theorem Started.begun (h : Started fs filter sources inters stack) :
    Begun fs filter sources inters stack :=
  ⟨h.perm, .of_eq h.paths_eq, h.allowed, h.ready⟩

/-- **How the stream starts**: with the sources that are not excluded, and the directories on the way
to them, both in the order of their paths. -/
theorem exists_begun (hsources : sources = paths.filter fun path => filter.allow path)
    (hbelow : ∀ src ∈ sources, Absolute src ∧ StrictPrefix (calculateLcp sources) src)
    (hread : NoReadFails fs filter sources) (hslash : [.rootDir] ∉ sources) :
    ∃ inters stack, fs.fromPaths filter paths = some (inters, stack) ∧
      Begun fs filter sources inters stack ∧
      (inters.Pairwise fun a b => pathLe a.1 b.1 = true) ∧
      stack.Pairwise fun a b => pathLe a.1 b.1 = true := by
  have hallow : ∀ src ∈ sources, filter.allow src = true := by
    intro src hsrc
    rw [hsources] at hsrc
    exact (List.mem_filter.mp hsrc).2
  obtain ⟨entries, hentries, hfst, hstats⟩ := FileSystem.exists_mapM fs.stat fun src hsrc =>
    (hread.below src hsrc).stat src .top
  have hsrc : ∀ e ∈ entries, e.1 ∈ sources := fun e he => hfst ▸ List.mem_map_of_mem he
  have hstack : (entries.insertionSort fun a b => pathLe a.1 b.1).map
      (fun e => (FileSystem.stackPath e.1, e.2)) =
        entries.insertionSort fun a b => pathLe a.1 b.1 := by
    refine (List.map_congr_left fun e he => ?_).trans (List.map_id _)
    have hmem := hsrc e ((List.mem_insertionSort _).mp he)
    rw [stackPath_eq (hbelow e.1 hmem).1 fun h => hslash (h ▸ hmem)]
    rfl
  -- a directory above a source that is not excluded is not excluded
  have hinters : ∀ e ∈ (getIntermediatePaths (calculateLcp sources) sources).2,
      filter.allow e.1 = true := by
    intro e he
    obtain ⟨-, src, hmem, hlt⟩ := SourceStream.isIntermediate_of_mem hbelow he
    exact filter.closed hlt.1 (hallow src hmem)
  refine ⟨_, _, ?_, ⟨List.perm_insertionSort (fun a b => pathLe a.1 b.1) _, ?_, fun e he => ?_,
    fun e he => ?_⟩, pairwise_sortByPath _, pairwise_sortByPath entries⟩
  · rw [FileSystem.fromPaths]
    simp only [← hsources, hentries, List.filter_eq_self.mpr hinters, hstack]
  · rw [← hfst]
    exact (List.perm_insertionSort (fun a b => pathLe a.1 b.1) entries).map Prod.fst
  · exact hinters e ((List.mem_insertionSort _).mp he)
  · have he := (List.mem_insertionSort _).mp he
    exact ⟨hallow e.1 (hsrc e he), hread.below e.1 (hsrc e he), hstats e he⟩

/-- The source paths of a run are in their order already. -/
theorem exists_started (hsources : sources = sourcePaths filter paths)
    (hbelow : ∀ src ∈ sources, Absolute src ∧ StrictPrefix (calculateLcp sources) src)
    (hread : NoReadFails fs filter sources) (hslash : [.rootDir] ∉ sources) :
    ∃ inters stack, fs.fromPaths filter sources = some (inters, stack) ∧
      Started fs filter sources inters stack := by
  have hfilter : sources = sources.filter fun path => filter.allow path := by
    refine (List.filter_eq_self.mpr fun src hsrc => ?_).symm
    rw [hsources] at hsrc
    exact (mem_sourcePaths.mp hsrc).2
  obtain ⟨inters, stack, hfrom, hbegun, -, hsorted⟩ := exists_begun hfilter hbelow hread hslash
  refine ⟨inters, stack, hfrom, hbegun.perm, ?_, hbegun.allowed, hbegun.ready⟩
  have hordered : sources.Pairwise fun a b => pathLe a b = true := by
    rw [hsources]
    exact pairwise_sortPaths _
  exact hbegun.paths_perm.eq_of_pairwise (fun a b _ _ => pathLe_antisymm)
    (List.pairwise_map.mpr hsorted) hordered

/-- Everything that the walk emits is requested, with its node and its count. -/
theorem Begun.mem_pendingItems (h : Begun fs filter sources inters stack)
    (hbelow : ∀ src ∈ sources, Absolute src ∧ StrictPrefix (calculateLcp sources) src)
    (hread : NoReadFails fs filter sources) {e : Path × Option StreamNode}
    (he : e ∈ fs.pendingItems filter inters stack) :
    ∃ next, e.2 = some next ∧ fs.stat e.1 = some next.node ∧
      RightCount fs filter sources e.1 next := by
  rcases List.mem_append.mp he with hinter | hwalk
  · obtain ⟨c, hc, rfl⟩ := List.mem_map.mp hinter
    have hmem := h.perm.mem_iff.mp hc
    have hway := SourceStream.isIntermediate_of_mem hbelow hmem
    obtain ⟨node, hstat⟩ := hread.above c.1 hway
    exact ⟨⟨node, c.2⟩, by rw [hstat, Option.map_some], hstat, Or.inl ⟨hway, hmem⟩⟩
  · obtain ⟨c, hc, hitem⟩ := List.mem_flatMap.mp hwalk
    obtain ⟨i, hi, rfl⟩ := List.mem_map.mp hitem
    obtain ⟨-, hreadable, hstat⟩ := h.ready c hc
    obtain ⟨hpath, hnode, hcount⟩ := FileSystem.below_of_mem_walkTree hreadable hstat hi
    have hsrc : c.1 ∈ sources := h.paths_perm.subset (List.mem_map_of_mem hc)
    exact ⟨i.2, rfl, hnode, Or.inr ⟨c.1, hsrc, hpath, hcount⟩⟩

theorem map_fst_pendingItems :
    (fs.pendingItems filter inters stack).map Prod.fst = inters.map Prod.fst ++
      stack.flatMap fun c => (fs.walkTree filter (fs.height + 1) c.1 c.2).map Prod.fst := by
  rw [FileSystem.pendingItems, List.map_append, List.map_map, List.map_flatMap]
  congr 1
  refine List.flatMap_congr fun c _ => ?_
  rw [List.map_map]
  rfl

/-- The walk emits no path twice. -/
theorem Begun.nodup_pendingItems (h : Begun fs filter sources inters stack)
    (hbelow : ∀ src ∈ sources, Absolute src ∧ StrictPrefix (calculateLcp sources) src)
    (hnested : NotNested sources) (hnodup : sources.Nodup) :
    ((fs.pendingItems filter inters stack).map Prod.fst).Nodup := by
  have hle : ∀ c ∈ stack, ∀ q ∈ (fs.walkTree filter (fs.height + 1) c.1 c.2).map Prod.fst,
      c.1 ∈ sources ∧ c.1 <+: q := by
    intro c hc q hq
    obtain ⟨i, hi, rfl⟩ := List.mem_map.mp hq
    exact ⟨h.paths_perm.subset (List.mem_map_of_mem hc), FileSystem.le_of_mem_walkTree hi⟩
  rw [map_fst_pendingItems, List.nodup_append']
  refine ⟨?_, List.nodup_flatMap.mpr ⟨fun c hc => ?_, ?_⟩, fun q hinter hwalk => ?_⟩
  · -- the keys of a map
    rw [(h.perm.map Prod.fst).nodup_iff, getIntermediatePaths, List.map_map, Table.toList,
      List.map_map]
    exact (sources.foldl (addSource (calculateLcp sources)) ([], ∅)).2.nodupKeys
  · exact FileSystem.nodup_walkTree (h.ready c hc).2.1 (h.ready c hc).2.2
  · -- two sources have nothing in common
    have hne : stack.Pairwise fun c c' => c.1 ≠ c'.1 :=
      List.pairwise_map.mp (h.paths_perm.nodup_iff.mpr hnodup)
    refine hne.imp_of_mem fun {c c'} hc hc' hne q hq hq' => hne ?_
    obtain ⟨hsrc, hq⟩ := hle c hc q hq
    obtain ⟨hsrc', hq'⟩ := hle c' hc' q hq'
    exact hnested.source_unique hsrc hsrc' hq hq'
  · obtain ⟨e, he, rfl⟩ := List.mem_map.mp hinter
    obtain ⟨c, hc, hq⟩ := List.mem_flatMap.mp hwalk
    obtain ⟨hsrc, hq⟩ := hle c hc _ hq
    exact hnested.not_intermediate hsrc hq
      (SourceStream.isIntermediate_of_mem hbelow (h.perm.mem_iff.mp he))

/-- The walk emits everything below the sources. -/
theorem Begun.mem_of_below (h : Begun fs filter sources inters stack) (hsrc : src ∈ sources)
    {path : Path} (hpath : fs.Below filter src path) :
    path ∈ (fs.pendingItems filter inters stack).map Prod.fst := by
  obtain ⟨c, hc, rfl⟩ := List.mem_map.mp (h.paths_perm.mem_iff.mpr hsrc)
  have hlen := hpath.length_le
  obtain ⟨i, hi, hip⟩ : ∃ i ∈ fs.walkTree filter (fs.height + 1) c.1 c.2, i.1 = path :=
    FileSystem.exists_mem_walkTree (h.ready c hc).2.1 (h.ready c hc).2.2 hpath (by omega)
  rw [map_fst_pendingItems]
  exact List.mem_append_right _ (List.mem_flatMap.mpr ⟨c, hc, List.mem_map.mpr ⟨i, hi, hip⟩⟩)

/-- **The items of a run** over regular sources. -/
theorem Started.placed (h : Started fs filter sources inters stack)
    (hbelow : ∀ src ∈ sources, Absolute src ∧ StrictPrefix (calculateLcp sources) src)
    (hread : NoReadFails fs filter sources) (hreg : Regular fs filter sources) (hnodup : sources.Nodup)
    {emitted : List (Path × Option StreamNode)} {items : List (Path × StreamNode)}
    (hemitted : emitted.Perm (fs.pendingItems filter inters stack)) (hproc : Processes emitted items) :
    Placed fs filter sources items ∧ ∀ i ∈ items, RightCount fs filter sources i.1 i.2 := by
  have hmem : ∀ e ∈ emitted, ∃ next, e.2 = some next ∧ fs.stat e.1 = some next.node ∧
      RightCount fs filter sources e.1 next := fun e he =>
    h.begun.mem_pendingItems hbelow hread (hemitted.mem_iff.mp he)
  obtain ⟨hfst, hfrom⟩ := hproc.spec fun e he => by
    obtain ⟨next, hnext, -⟩ := hmem e he
    exact ⟨next, hnext⟩
  have hperm := hemitted.map Prod.fst
  rw [← hfst] at hperm
  have hitem : ∀ i ∈ items, RightCount fs filter sources i.1 i.2 ∧ ∃ node, fs.stat i.1 = some node ∧
      i.2.node.name = node.name ∧ i.2.node.nodeType = node.nodeType ∧ i.2.node.tree = node.tree := by
    intro i hi
    obtain ⟨next, hnext, hproc⟩ := hfrom i hi
    obtain ⟨next', heq, hstat, hcount⟩ := hmem _ hnext
    cases heq
    obtain ⟨hnum, hname, htype, htree⟩ := hproc.keeps
    refine ⟨?_, next.node, hstat, hname, htype, htree⟩
    rw [RightCount, hnum, Node.isDir, htype]
    exact hcount
  refine ⟨⟨hperm.nodup_iff.mpr (h.begun.nodup_pendingItems hbelow hreg.notNested hnodup), fun i hi => ?_,
    fun i hi => (hitem i hi).2,
      fun src hsrc path hpath => hperm.mem_iff.mpr (h.begun.mem_of_below hsrc hpath)⟩,
    fun i hi => (hitem i hi).1⟩
  rcases (hitem i hi).1 with ⟨hway, -⟩ | ⟨src, hsrc, hpath, -⟩
  · exact Or.inl hway
  · exact Or.inr ⟨src, hsrc, hpath⟩

end Walk

/-! ## The stored tree -/

section Stored

variable {env : TreeEnv} {fs : FileSystem} {filter : PathFilter} {paths sources : List Path}
  {items order : List (Path × StreamNode)}

theorem Placed.namesDistinct (h : Placed fs filter sources items) (hreg : Regular fs filter sources)
    {S : SourceStream} (hroot : S.root = calculateLcp sources) (hsources : S.sources = sources)
    (hitems : S.items = items) : S.NamesDistinct := by
  have hreq : ∀ p, p ∈ S.nodes → Requested fs filter sources p := by
    intro p hp
    rcases SourceStream.mem_nodes.mp hp with ⟨i, hi, rfl⟩ | hpre
    · exact h.requested i (hitems ▸ hi)
    · rw [SourceStream.Pre, hroot, hsources] at hpre
      exact Or.inl hpre
  intro dir _
  refine SourceStream.nodup_map_children fun p hp q hq _ _ _ _ heq => ?_
  obtain ⟨hpmem, hpdir⟩ := SourceStream.mem_children.mp hp
  obtain ⟨hqmem, hqdir⟩ := SourceStream.mem_children.mp hq
  rw [hreg.names p q (hreq p hpmem) (hreq q hqmem) (hpdir.trans hqdir.symm) heq]

/-- The tree that the serializer makes of the items of a run. -/
theorem Placed.contains (h : Placed fs filter sources items) (hreg : Regular fs filter sources)
    (hbelow : ∀ src ∈ sources, Absolute src ∧ StrictPrefix (calculateLcp sources) src)
    {S : SourceStream} (hroot : S.root = calculateLcp sources) (hsources : S.sources = sources)
    (hitems : S.items = items) (hnames : S.NamesDistinct)
    (hser : ∀ dir, S.Dir dir → S.Serializes env (S.ownIn order) dir) :
    ContainsSources env fs filter sources (S.treeOf env (S.ownIn order) S.root) := by
  intro src hsrc path found hpath hstat
  obtain ⟨i, hi, rfl⟩ := List.mem_map.mp (h.all src hsrc path hpath)
  have hne : calculateLcp sources ≠ [] := calculateLcp_ne_nil (fun s hs => (hbelow s hs).1) hreg.slash
    (List.ne_nil_of_mem hsrc)
  have hlt : StrictPrefix (calculateLcp sources) i.1 := (hbelow src hsrc).2.trans_le hpath.le
  obtain ⟨-, names, hrest⟩ := (absolute_of_below (hbelow src hsrc).1 hpath).exists_names hlt.1 hne
  have hnil : names ≠ [] := by
    rintro rfl
    exact hlt.2 (by rw [hrest, List.map_nil, List.append_nil])
  have hmem : S.root ++ names.map .normal ∈ S.nodes := by
    rw [hroot, ← hrest]
    exact SourceStream.mem_nodes.mpr (Or.inl ⟨i, hitems ▸ hi, rfl⟩)
  have hnode := SourceStream.nodeAt_treeOf hnames SourceStream.named_ownIn hser (Or.inl rfl) hnil hmem
  have hrelative : relativeNames (calculateLcp sources) i.1 = names.map toStringLossy := by
    rw [relativeNames, hrest, List.drop_left, List.map_map]
    rfl
  -- no path below a source is late
  have hlate : ¬ S.Late order i.1 := fun hlate => by
    have hpre := hlate.1
    rw [SourceStream.Pre, hroot, hsources] at hpre
    exact hreg.notNested.not_intermediate hsrc hpath.le hpre
  have hown : S.ownIn order i.1 = i.2.node := by
    rw [SourceStream.ownIn, if_neg hlate, SourceStream.ownNode_of_mem (hitems ▸ hi)]
  obtain ⟨node, hstat', -, htype, -⟩ := h.found i hi
  rw [hstat] at hstat'
  cases hstat'
  refine ⟨_, hrelative ▸ hnode, ?_⟩
  rw [hroot, ← hrest, SourceStream.final, hown, ← htype]
  split <;> rfl

end Stored

/-- What a successful run over a stream that started right stores. -/
theorem Started.contains {env : TreeEnv} {fs : FileSystem} {filter : PathFilter} {paths : List Path}
    {inters : List (Path × Nat)} {stack : List (Path × Node)} {fuel : Nat} {result : Option ID}
    (hstarted : Started fs filter (sourcePaths filter paths) inters stack)
    (hfrom : fs.fromPaths filter (sourcePaths filter paths) = some (inters, stack))
    (hbelow : ∀ src ∈ sourcePaths filter paths, Absolute src ∧
      StrictPrefix (calculateLcp (sourcePaths filter paths)) src)
    (hread : NoReadFails fs filter (sourcePaths filter paths))
    (hreg : Regular fs filter (sourcePaths filter paths))
    (hfuel : (fs.pendingItems filter inters stack).length < fuel)
    (h : Stores env fs filter paths fuel result) :
    ∃ id, result = some id ∧ ContainsSources env fs filter (sourcePaths filter paths) id := by
  obtain ⟨inters', stack', items, order, hfrom', hproc, hperm, hresult⟩ := h
  rw [hfrom] at hfrom'
  cases hfrom'
  have hwalk := FileSystem.walkLoop_perm hstarted.allowed hstarted.ready hfuel
  obtain ⟨hplaced, hcount⟩ := hstarted.placed hbelow hread hreg nodup_sourcePaths hwalk hproc
  obtain ⟨S, hroot, hsources, hitems⟩ : ∃ S : SourceStream,
      S.root = calculateLcp (sourcePaths filter paths) ∧ S.sources = sourcePaths filter paths ∧
        S.items = items :=
    ⟨hplaced.toStream hreg hbelow (hplaced.announced hreg hread hbelow hcount), rfl, rfl, rfl⟩
  have hnames := hplaced.namesDistinct hreg hroot hsources hitems
  rw [← hroot, ← hsources] at hresult
  rcases SourceStream.serialize_eq env (hitems ▸ hperm) hnames with ⟨heq, hser⟩ | ⟨hnone, -⟩
  · rw [SourceStream.serialize, hresult] at heq
    exact ⟨_, Option.some.inj heq, hplaced.contains hreg hbelow hroot hsources hitems hnames hser⟩
  · rw [SourceStream.serialize, hresult] at hnone
    cases hnone

/-- The source paths of a run lie strictly below their common root. -/
theorem Regular.below_sources {fs : FileSystem} {filter : PathFilter} {paths : List Path}
    (habs : ∀ path ∈ paths, Absolute path) (hreg : Regular fs filter (sourcePaths filter paths)) :
    ∀ src ∈ sourcePaths filter paths, Absolute src ∧
      StrictPrefix (calculateLcp (sourcePaths filter paths)) src := by
  have habs' : ∀ src ∈ sourcePaths filter paths, Absolute src := fun src hsrc =>
    habs src (mem_sourcePaths.mp hsrc).1
  exact fun src hsrc =>
    ⟨habs' src hsrc, calculateLcp_lt habs' hreg.slash nodup_sourcePaths hreg.not_nested src hsrc⟩

/-- **Every requested file is in the snapshot**, when the sources are not nested, none of them is
the root of the file system, the directories on the way to them are no symbolic links and no two
names of a directory look the same: with enough fuel the walk ends, and the tree that a successful
run stores has everything below the sources, each path once. -/
theorem stored_tree_contains_sources (env : TreeEnv) (fs : FileSystem) (filter : PathFilter)
    (paths : List Path) (habs : ∀ path ∈ paths, Absolute path)
    (hread : NoReadFails fs filter (sourcePaths filter paths))
    (hreg : Regular fs filter (sourcePaths filter paths)) :
    ∃ fuel₀, ∀ fuel, fuel₀ ≤ fuel → (fs.fromPaths filter (sourcePaths filter paths)).isSome ∧
      ∀ result, Stores env fs filter paths fuel result →
        ∃ id, result = some id ∧ ContainsSources env fs filter (sourcePaths filter paths) id := by
  have hbelow := hreg.below_sources habs
  obtain ⟨inters, stack, hfrom, hstarted⟩ := exists_started rfl hbelow hread hreg.slash
  refine ⟨(fs.pendingItems filter inters stack).length + 1, fun fuel hfuel => ⟨by rw [hfrom]; rfl, ?_⟩⟩
  exact fun result h => hstarted.contains hfrom hbelow hread hreg hfuel h

section Sample

/-- A filter without rules. -/
def noFilter : PathFilter := ⟨fun _ => true, fun _ _ => rfl⟩

/-- A file system with the empty file `/a`. -/
def slashFs : FileSystem where
  stat path :=
    if path = [.rootDir] then some { name := "/", nodeType := .directory }
    else if path = [.rootDir, .normal [0x61]] then some { name := "a" }
    else none
  readDir path := if path = [.rootDir] then some [[0x61]] else none
  nodup := by
    intro path names h
    split at h
    · cases h
      decide
    · cases h
  named := by
    intro path node name h hname
    split at h
    · rename_i hpath
      subst hpath
      cases hname
    · split at h
      · rename_i hpath
        subst hpath
        cases h
        cases hname
        decide
      · cases h
  bare := by
    intro path node h
    split at h
    · cases h
      exact ⟨rfl, rfl⟩
    · split at h
      · cases h
        exact ⟨rfl, rfl⟩
      · cases h
  height := 2
  finite := by
    intro path names h _
    split at h
    · rename_i hpath
      rw [hpath]
      decide
    · cases h
  empty := ⟨rfl, rfl⟩

/-- Two trees are written: the empty one, and the one with the file. -/
def slashCodec : TreeCodec where
  toVec nodes :=
    if nodes = [] then some [0]
    else if nodes = [{ name := "a", blobs := some [] }] then some [1]
    else none
  fromSlice bytes := if bytes = [0] then some [] else some [{ name := "a", blobs := some [] }]
  fromSlice_toVec := by
    intro nodes bytes h
    split at h
    · rename_i hnodes
      cases h
      rw [hnodes]
      rfl
    · split at h
      · rename_i hnodes
        cases h
        rw [hnodes]
        rfl
      · cases h

def slashEnv : TreeEnv where
  sort := sortByKey Node.name
  perm := perm_sortByKey Node.name
  sorted := fun nodes => pairwise_sortByKey Node.name nodes
  codec := slashCodec
  fromContent := fun bytes => Fin.ofNat _ (bytes.headD 0).toNat

theorem below_slashFs {path : Path} (h : slashFs.Below noFilter [.rootDir] path) :
    path = [.rootDir] ∨ path = [.rootDir, .normal [0x61]] := by
  induction h with
  | top => exact Or.inl rfl
  | entry _ hstat hdir hread hname _ ih =>
    rcases ih with rfl | rfl
    · cases hread
      rw [List.mem_singleton.mp hname]
      exact Or.inr rfl
    · cases hread

theorem readable_slashFs : slashFs.Readable noFilter [.rootDir] := by
  constructor
  · intro path h
    rcases below_slashFs h with rfl | rfl
    · exact ⟨_, rfl⟩
    · exact ⟨_, rfl⟩
  · intro path node h hstat hdir
    rcases below_slashFs h with rfl | rfl
    · exact ⟨_, rfl⟩
    · cases hstat
      cases hdir

theorem stores_slashFs (fuel : Nat) : Stores slashEnv slashFs noFilter [[.rootDir, .normal [0x61]]]
    (fuel + 1) (some 1) := by
  refine ⟨[], [([.rootDir, .normal [0x61]], { name := "a" })],
    [([.rootDir, .normal [0x61]], ⟨{ name := "a", blobs := some [] }, 0⟩)], _, rfl, ?_, .refl _, ?_⟩
  · have hfile : Processed ⟨{ name := "a" }, 0⟩ ⟨{ name := "a", blobs := some [] }, 0⟩ :=
      ⟨none, some [], rfl⟩
    refine .item hfile ?_
    cases fuel <;> exact .nil
  · decide

theorem sample_stored_tree : (∀ fuel, Stores slashEnv slashFs noFilter [[.rootDir, .normal [0x61]]]
      (fuel + 1) (some 1)) ∧
    ContainsSources slashEnv slashFs noFilter [[.rootDir, .normal [0x61]]] 1 := by
  have hbelow : ∀ path, slashFs.Below noFilter [.rootDir, .normal [0x61]] path →
      path = [.rootDir, .normal [0x61]] := by
    intro path h
    induction h with
    | top => rfl
    | entry _ _ _ hread _ _ ih =>
      subst ih
      cases hread
  have hinter : ∀ dir, ¬ IsIntermediate [.rootDir] [[.rootDir, .normal [0x61]]] dir := by
    rintro dir ⟨hroot, src, hsrc, hlt⟩
    rw [List.mem_singleton.mp hsrc] at hlt
    have h₁ := hroot.length_lt
    have h₂ := hlt.length_lt
    simp only [List.length_cons, List.length_nil] at h₁ h₂
    omega
  have hread : NoReadFails slashFs noFilter [[.rootDir, .normal [0x61]]] := by
    constructor
    · intro src hsrc
      rw [List.mem_singleton.mp hsrc]
      exact readable_slashFs.entry (.entry .top rfl rfl rfl (List.mem_singleton_self _) rfl)
    · exact fun dir h => absurd h (hinter dir)
  have hreq : ∀ path, Requested slashFs noFilter [[.rootDir, .normal [0x61]]] path →
      path = [.rootDir, .normal [0x61]] := by
    rintro path (h | ⟨src, hsrc, h⟩)
    · exact absurd h (hinter path)
    · rw [List.mem_singleton.mp hsrc] at h
      exact hbelow path h
  have hreg : Regular slashFs noFilter [[.rootDir, .normal [0x61]]] :=
    ⟨by decide, by decide, fun dir _ h => absurd h (hinter dir),
      fun p q hp hq _ _ => (hreq p hp).trans (hreq q hq).symm⟩
  refine ⟨stores_slashFs, ?_⟩
  obtain ⟨fuel₀, h⟩ := stored_tree_contains_sources slashEnv slashFs noFilter
    [[.rootDir, .normal [0x61]]] (fun path hpath => ⟨[[0x61]], List.mem_singleton.mp hpath⟩) hread hreg
  obtain ⟨id, hid, hcontains⟩ := (h (fuel₀ + 1) (Nat.le_succ _)).2 _ (stores_slashFs fuel₀)
  cases hid
  exact hcontains

/-- The root of the file system as the only source: the run succeeds, and the stored tree is empty.
-/
theorem slash_source_stores_nothing :
    NoReadFails slashFs noFilter [[.rootDir]] ∧
    slashFs.Below noFilter [.rootDir] [.rootDir, .normal [0x61]] ∧
    (∀ fuel, Stores slashEnv slashFs noFilter [[.rootDir]] (fuel + 1) (some 0)) ∧
    (∀ names node, ¬ NodeAt slashEnv 0 names node) ∧
    ¬ ContainsSources slashEnv slashFs noFilter [[.rootDir]] 0 := by
  have hnodes : ∀ nodes, slashEnv.Encodes 0 nodes → nodes = [] := by
    rintro nodes ⟨bytes, hvec, hid⟩
    by_contra hne
    have hvec' : slashCodec.toVec nodes = some bytes := hvec
    simp only [slashCodec, if_neg hne] at hvec'
    split at hvec'
    · cases hvec'
      exact absurd hid (by decide)
    · cases hvec'
  have hempty : ∀ names node, ¬ NodeAt slashEnv 0 names node := by
    intro names node h
    cases h with
    | here henc hfilter =>
      rw [hnodes _ henc] at hfilter
      cases hfilter
    | inside henc hfilter _ _ =>
      rw [hnodes _ henc] at hfilter
      cases hfilter
  refine ⟨⟨?_, ?_⟩, .entry .top rfl rfl rfl (List.mem_singleton_self _) rfl, fun fuel => ?_, hempty,
    ?_⟩
  · intro src hsrc
    rw [List.mem_singleton.mp hsrc]
    exact readable_slashFs
  · rintro dir ⟨hroot, src, hsrc, hlt⟩
    rw [List.mem_singleton.mp hsrc] at hlt
    have h₁ := hroot.length_lt
    have h₂ := hlt.length_lt
    simp only [List.length_cons, List.length_nil] at h₂
    omega
  · -- the walk finds no entries at the empty path
    refine ⟨[], [([], { name := "/", nodeType := .directory })],
      [([], ⟨{ name := "/", nodeType := .directory }, 0⟩)], _, rfl, ?_, .refl _, ?_⟩
    · have hslash : Processed ⟨{ name := "/", nodeType := .directory }, 0⟩
          ⟨{ name := "/", nodeType := .directory }, 0⟩ := ⟨none, none, rfl⟩
      refine .item hslash (.skip ?_)
      cases fuel <;> exact .nil
    · decide
  · intro h
    obtain ⟨node, hnode, -⟩ := h _ (List.mem_singleton_self _) _ _ .top rfl
    exact hempty _ _ hnode

end Sample

end Mapache
