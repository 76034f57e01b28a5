import Mapache.Archiver.DepthFirst
import Mapache.Fs.Names

/-!
# Rewriting a snapshot

`rewrite_snapshot_tree` of `common/mod.rs`: the nodes of the stored tree that are not excluded go to
a tree serializer one after the other, and the ID of its root becomes the tree of the snapshot. What
is done to a node on the way is a parameter (`keepNode` for `amend`).

The serializer expects in the root as many entries as the source paths of the snapshot that are not
excluded have there, while the stream yields those of the stored tree. The rewrite succeeds if and
only if the tree does not have more of these entries than that (`rewriteSnapshotTree_returns`).
-/

set_option autoImplicit false

namespace Mapache

open Lib

/-- The fields of a snapshot file that a rewrite reads or sets. -/
structure SnapshotRecord where
  root : Path
  paths : List Path
  tree : ID
  processedItemsCount : Nat
  processedBytes : Nat
  deriving DecidableEq

section Definitions

variable {μ : Type} (env : TreeEnv) (load : ID → Except StreamError (List Node)) (filter : PathFilter)
  (process : μ → Node → Option (Node × μ))

/-- What the loop of `rewrite_snapshot_tree` carries along: the serializer, the memo, and the counts
of the summary. -/
structure RewriteState (μ : Type) where
  serializer : TreeSerializer
  memo : μ
  items : Nat
  bytes : Nat

/-- One node of the stream. -/
def rewriteNode (s : RewriteState μ) (item : Path × StreamNode) : Option (RewriteState μ) :=
  (process s.memo item.2.node).bind fun (node, memo) =>
    (s.serializer.handle env (item.1, ⟨node, item.2.numChildren⟩)).map fun serializer =>
      { serializer, memo
        items := s.items + 1
        bytes := s.bytes + if node.isFile then node.metadata.size else 0 }

/-- The loop over the stream of nodes. The fuel bounds the number of items. -/
def rewriteLoop : Nat → List (Path × Node) → RewriteState μ → Option (RewriteState μ)
  | 0, _, _ => none
  | fuel + 1, stack, s =>
    match SerializedNodeStream.next load filter stack with
    | none => some s
    | some (.error _, _) => none
    | some (.ok (_, none), _) => none
    | some (.ok (path, some item), stack) =>
      (rewriteNode env process s (path, item)).bind (rewriteLoop fuel stack)

/-- The number of entries that the serializer expects in the root. -/
def expectedEntries (snapshot : SnapshotRecord) : Nat :=
  (getIntermediatePaths snapshot.root (snapshot.paths.filter fun path => filter.allow path)).1

/-- `rewrite_snapshot_tree`, with the filter of the canonical excludes. -/
def rewriteSnapshotTree (fuel : Nat) (snapshot : SnapshotRecord) (memo : μ) :
    Option (SnapshotRecord × μ) :=
  let paths := snapshot.paths.filter fun path => filter.allow path
  let serializer := TreeSerializer.new snapshot.root (getIntermediatePaths snapshot.root paths)
  match SerializedNodeStream.new load filter (some snapshot.tree) snapshot.root with
  | .error _ => none
  | .ok stack =>
    (rewriteLoop env load filter process fuel stack ⟨serializer, memo, 0, 0⟩).bind fun s =>
      (TreeSerializer.finalizeIfComplete env (s.serializer.snapshotRootPath.length + 1) s.serializer
        s.serializer.snapshotRootPath).bind fun serializer =>
          serializer.rootTreeId.map fun tree =>
            ({ snapshot with tree, processedItemsCount := s.items, processedBytes := s.bytes },
              s.memo)

end Definitions

/-- Without rechunking a node goes to the serializer as it is. -/
def keepNode (memo : Unit) (node : Node) : Option (Node × Unit) := some (node, memo)

/-! ## Stored trees -/

/-- A stored tree as the serializer makes them: the names of a level are distinct, each of them a
single normal component, and there is a tree for each directory and for nothing else. -/
inductive SnapshotTree (load : ID → Except StreamError (List Node)) : ID → Prop where
  | mk {id : ID} {nodes : List Node} : load id = .ok nodes → (nodes.map Node.name).Nodup →
      (∀ node ∈ nodes, SingleNormal node.nameBytes) →
      (∀ node ∈ nodes, node.isDir = node.tree.isSome) →
      (∀ node ∈ nodes, ∀ sub, node.tree = some sub → SnapshotTree load sub) → SnapshotTree load id

/-- A level of a stored tree. -/
structure SnapshotLevel (load : ID → Except StreamError (List Node)) (nodes : List Node) : Prop where
  names : (nodes.map Node.name).Nodup
  normal : ∀ node ∈ nodes, SingleNormal node.nameBytes
  dirs : ∀ node ∈ nodes, node.isDir = node.tree.isSome
  trees : ∀ node ∈ nodes, ∀ sub, node.tree = some sub → SnapshotTree load sub

section Trees

variable {load load' : ID → Except StreamError (List Node)} {filter : PathFilter} {env : TreeEnv}
  {base path : Path} {node found : Node} {nodes nodes' : List Node} {id : ID}

theorem SnapshotTree.level (h : SnapshotTree load id) (hload : load id = .ok nodes) :
    SnapshotLevel load nodes := by
  obtain ⟨hload', hnames, hnormal, hdirs, htrees⟩ := h
  rw [hload] at hload'
  cases hload'
  exact ⟨hnames, hnormal, hdirs, htrees⟩

theorem SnapshotLevel.tree (h : SnapshotLevel load nodes) (hload : load id = .ok nodes) :
    SnapshotTree load id := .mk hload h.names h.normal h.dirs h.trees

/-- The order of a level does not matter. -/
theorem SnapshotLevel.perm (h : SnapshotLevel load nodes) (hperm : nodes'.Perm nodes) :
    SnapshotLevel load nodes' where
  names := ((hperm.map Node.name).nodup_iff).mpr h.names
  normal := fun n hn => h.normal n (hperm.mem_iff.mp hn)
  dirs := fun n hn => h.dirs n (hperm.mem_iff.mp hn)
  trees := fun n hn => h.trees n (hperm.mem_iff.mp hn)

theorem SnapshotLevel.sublist (h : SnapshotLevel load nodes) (hsub : nodes'.Sublist nodes) :
    SnapshotLevel load nodes' where
  names := h.names.sublist (hsub.map Node.name)
  normal := fun n hn => h.normal n (hsub.subset hn)
  dirs := fun n hn => h.dirs n (hsub.subset hn)
  trees := fun n hn => h.trees n (hsub.subset hn)

theorem SnapshotLevel.tail (h : SnapshotLevel load (node :: nodes)) : SnapshotLevel load nodes :=
  h.sublist (List.sublist_cons_self _ _)

theorem SnapshotLevel.joinName_eq (h : SnapshotLevel load nodes) (hnode : node ∈ nodes) :
    joinName base node.nameBytes = entryPath base node :=
  joinName_of_singleNormal (h.normal node hnode) base

theorem Node.name_eq {a b : Node} (h : a.nameBytes = b.nameBytes) : a.name = b.name := by
  rw [← toStringLossy_nameBytes, h, toStringLossy_nameBytes]

theorem SnapshotLevel.nodup_nameBytes (h : SnapshotLevel load nodes) :
    (nodes.map Node.nameBytes).Nodup := by
  have hnames := List.pairwise_map.mp h.names
  exact List.pairwise_map.mpr (hnames.imp fun {a b} hne heq => hne (Node.name_eq heq))

/-- An item that goes to the serializer, and the item of the stream that it comes from. -/
def ItemOf (P : Node → Node → Prop) (raw item : Path × StreamNode) : Prop :=
  item.1 = raw.1 ∧ item.2.numChildren = raw.2.numChildren ∧
    if raw.2.node.isDir then item.2.node = raw.2.node
    else item.2.node.isDir = false ∧ item.2.node.name = raw.2.node.name ∧ P raw.2.node item.2.node

theorem entries_cons (base : Path) (node : Node) (nodes : List Node) :
    SerializedNodeStream.entries filter base (node :: nodes) =
      if filter.allow (joinName base node.nameBytes) then
        (base, node) :: SerializedNodeStream.entries filter base nodes
      else SerializedNodeStream.entries filter base nodes := by
  rw [SerializedNodeStream.entries, SerializedNodeStream.entries, List.filter_cons]
  split <;> rfl

theorem length_entries (h : SnapshotLevel load nodes) :
    (SerializedNodeStream.entries filter base nodes).length =
      (allowedEntries filter base nodes).length := by
  rw [SerializedNodeStream.entries, List.length_map, allowedEntries]
  congr 1
  exact List.filter_congr fun node hnode => by rw [h.joinName_eq hnode]

/-- What the stream yields of a level: each entry that is not excluded, and after a directory what
it yields of the directory's tree. -/
inductive FilteredWalk (load : ID → Except StreamError (List Node)) (filter : PathFilter) :
    Path → List Node → List (Path × StreamNode) → Prop where
  | nil {base : Path} : FilteredWalk load filter base [] []
  | skip {base : Path} {node : Node} {nodes : List Node} {raw : List (Path × StreamNode)} :
      filter.allow (entryPath base node) = false → FilteredWalk load filter base nodes raw →
      FilteredWalk load filter base (node :: nodes) raw
  | leaf {base : Path} {node : Node} {nodes : List Node} {raw : List (Path × StreamNode)} :
      filter.allow (entryPath base node) = true → node.tree = none →
      FilteredWalk load filter base nodes raw →
      FilteredWalk load filter base (node :: nodes) ((entryPath base node, ⟨node, 0⟩) :: raw)
  | dir {base : Path} {node : Node} {id : ID} {nodes sub : List Node}
      {below raw : List (Path × StreamNode)} :
      filter.allow (entryPath base node) = true → node.tree = some id → load id = .ok sub →
      FilteredWalk load filter (entryPath base node) sub below → FilteredWalk load filter base nodes raw →
      FilteredWalk load filter base (node :: nodes)
        ((entryPath base node, ⟨node, (allowedEntries filter (entryPath base node) sub).length⟩) ::
          (below ++ raw))

section Walk

variable {raw : List (Path × StreamNode)}

/-- A stored tree has a walk. The induction is on the tree, and for a tree on the entries that are
left of its level. -/
theorem SnapshotTree.exists_walk (h : SnapshotTree load id) (filter : PathFilter) (base : Path) :
    ∃ nodes raw, load id = .ok nodes ∧ FilteredWalk load filter base nodes raw := by
  induction h generalizing base with
  | @mk id nodes hload hnames hnormal hdirs hsub ih =>
    have hrest : ∀ rest : List Node, rest ⊆ nodes → ∃ raw, FilteredWalk load filter base rest raw := by
      intro rest
      induction rest with
      | nil => exact fun _ => ⟨[], .nil⟩
      | cons node rest ihrest =>
        intro hmem
        obtain ⟨raw, hwalk⟩ := ihrest (List.subset_of_cons_subset hmem)
        cases hallow : filter.allow (entryPath base node) with
        | false => exact ⟨raw, .skip hallow hwalk⟩
        | true =>
          cases htree : node.tree with
          | none => exact ⟨_, .leaf hallow htree hwalk⟩
          | some sub =>
            obtain ⟨subNodes, below, hsubload, hbelow⟩ :=
              ih node (hmem List.mem_cons_self) sub htree (entryPath base node)
            exact ⟨_, .dir hallow htree hsubload hbelow hwalk⟩
    obtain ⟨raw, hwalk⟩ := hrest nodes (List.Subset.refl nodes)
    exact ⟨nodes, raw, hload, hwalk⟩

/-- **The stream of a stored level** yields its walk, and then what it yields without the level. -/
theorem FilteredWalk.yields (h : FilteredWalk load filter base nodes raw) (hlevel : SnapshotLevel load nodes)
    {stack : List (Path × Node)} {more : List (Except StreamError (Path × Option StreamNode))}
    (hmore : Yields (SerializedNodeStream.next load filter) stack more) :
    Yields (SerializedNodeStream.next load filter)
      (SerializedNodeStream.entries filter base nodes ++ stack)
      ((raw.map fun x => .ok (x.1, some x.2)) ++ more) := by
  induction h generalizing stack more with
  | nil => exact hmore
  | skip hallow _ ih =>
    rw [entries_cons, hlevel.joinName_eq List.mem_cons_self, hallow]
    exact ih hlevel.tail hmore
  | @leaf base node nodes raw hallow htree _ ih =>
    have hjoin : joinName base node.nameBytes = entryPath base node :=
      hlevel.joinName_eq List.mem_cons_self
    rw [entries_cons, hjoin, if_pos hallow, List.cons_append]
    refine .item ?_ (ih hlevel.tail hmore)
    simp only [SerializedNodeStream.next, hjoin, hallow, htree, if_true]
  | @dir base node id nodes sub below raw hallow htree hload _ _ ihbelow ih =>
    have hjoin : joinName base node.nameBytes = entryPath base node :=
      hlevel.joinName_eq List.mem_cons_self
    have hsub := (hlevel.trees node List.mem_cons_self id htree).level hload
    rw [entries_cons, hjoin, if_pos hallow, List.cons_append, List.map_cons, List.map_append,
      List.cons_append, List.append_assoc]
    refine .item ?_ (ihbelow hsub (ih hlevel.tail hmore))
    simp only [SerializedNodeStream.next, hjoin, hallow, htree, hload, if_true,
      length_entries hsub]

/-- The items of a walk are paths of the tree. -/
theorem FilteredWalk.pathOf (h : FilteredWalk load filter base nodes raw) (hlevel : SnapshotLevel load nodes) :
    ∀ item ∈ raw, PathOf load base nodes item.1 item.2.node := by
  induction h with
  | nil =>
    intro item hitem
    cases hitem
  | skip _ _ ih => exact fun item hitem =>
    pathOf_cons.mpr (Or.inr (Or.inr (ih hlevel.tail item hitem)))
  | leaf _ _ _ ih =>
    rintro item (_ | ⟨_, hitem⟩)
    · exact pathOf_cons.mpr (Or.inl ⟨(hlevel.joinName_eq List.mem_cons_self).symm, rfl⟩)
    · exact pathOf_cons.mpr (Or.inr (Or.inr (ih hlevel.tail item hitem)))
  | @dir base node id nodes sub below raw _ htree hload _ _ ihbelow ih =>
    rintro item (_ | ⟨_, hitem⟩)
    · exact pathOf_cons.mpr (Or.inl ⟨(hlevel.joinName_eq List.mem_cons_self).symm, rfl⟩)
    · rcases List.mem_append.mp hitem with hbelow | hrest
      · have hsub := ihbelow ((hlevel.trees node List.mem_cons_self id htree).level hload) item hbelow
        rw [← hlevel.joinName_eq List.mem_cons_self] at hsub
        exact pathOf_cons.mpr (Or.inr (Or.inl ⟨id, sub, htree, hload, hsub⟩))
      · exact pathOf_cons.mpr (Or.inr (Or.inr (ih hlevel.tail item hrest)))

/-- A walk whose leaves are processed is a walk of the rewrite. -/
theorem FilteredWalk.exists_rewrites (h : FilteredWalk load filter base nodes raw)
    (hlevel : SnapshotLevel load nodes) (env : TreeEnv) {P : Node → Node → Prop}
    {items : List (Path × StreamNode)} (hitems : List.Forall₂ (ItemOf P) raw items) :
    ∃ out, Rewrites load filter env P base nodes raw items out := by
  induction h generalizing items with
  | nil =>
    cases hitems
    exact ⟨_, .nil⟩
  | skip hallow _ ih =>
    obtain ⟨out, hout⟩ := ih hlevel.tail hitems
    exact ⟨out, .skip hallow hout⟩
  | @leaf base node nodes raw hallow htree _ ih =>
    have hdir : node.isDir = false := by
      rw [hlevel.dirs node List.mem_cons_self, htree]
      rfl
    cases hitems with
    | @cons _ item _ items hitem hitems =>
      obtain ⟨path, node', count⟩ := item
      obtain ⟨hpath, hcount, hitem⟩ := hitem
      rw [if_neg (by rw [hdir]; exact Bool.false_ne_true)] at hitem
      cases hpath
      cases hcount
      obtain ⟨out, hout⟩ := ih hlevel.tail hitems
      exact ⟨_, .leaf hallow htree hitem.1 hitem.2.1 hitem.2.2 hout⟩
  | @dir base node id nodes sub below raw hallow htree hload _ _ ihbelow ih =>
    have hdir : node.isDir = true := by
      rw [hlevel.dirs node List.mem_cons_self, htree]
      rfl
    have hsub := (hlevel.trees node List.mem_cons_self id htree).level hload
    cases hitems with
    | @cons _ item _ items hitem hitems =>
      obtain ⟨path, node', count⟩ := item
      obtain ⟨hpath, hcount, hitem⟩ := hitem
      rw [if_pos hdir] at hitem
      cases hpath
      cases hcount
      cases hitem
      -- what is processed of the directory comes before the rest of the level
      have hbelow := (List.forall₂_take_append items below raw hitems.flip).flip
      have hothers := (List.forall₂_drop_append items below raw hitems.flip).flip
      obtain ⟨subOut, hsubOut⟩ := ihbelow hsub hbelow
      obtain ⟨out, hout⟩ := ih hlevel.tail hothers
      rw [← List.take_append_drop below.length items]
      exact ⟨_, .dir hallow hdir htree hload hsub.names hsubOut hout⟩

end Walk

end Trees

/-! ## The root of a stored snapshot -/

/-- A snapshot as it is stored: its root is a common prefix of the source paths. -/
structure StoredSnapshot (load : ID → Except StreamError (List Node)) (snapshot : SnapshotRecord) :
    Prop where
  tree : SnapshotTree load snapshot.tree
  below : ∀ src ∈ snapshot.paths, Absolute src ∧ snapshot.root <+: src

section Expected

variable {load : ID → Except StreamError (List Node)} {filter : PathFilter} {snapshot : SnapshotRecord}
  {names : List Bytes}

theorem counted_expectedEntries
    (h : ∀ src ∈ snapshot.paths, Absolute src ∧ snapshot.root <+: src) (filter : PathFilter) :
    ∃ acc, Counted snapshot.root (snapshot.paths.filter fun path => filter.allow path) acc ∧
      expectedEntries filter snapshot = acc.1.length :=
  ⟨_, getIntermediatePaths_spec_of_le fun src hsrc => h src (List.mem_filter.mp hsrc).1, rfl⟩

/-- Distinct names on the way to source paths are expected. -/
theorem le_expectedEntries
    (h : ∀ src ∈ snapshot.paths, Absolute src ∧ snapshot.root <+: src) (hnodup : names.Nodup)
    (hnames : ∀ name ∈ names,
      OnWay (snapshot.paths.filter fun path => filter.allow path) snapshot.root (.normal name)) :
    names.length ≤ expectedEntries filter snapshot := by
  obtain ⟨acc, hcounted, heq⟩ := counted_expectedEntries h filter
  rw [heq]
  refine (List.subperm_of_subset hnodup fun name hname => ?_).length_le
  exact (hcounted.mem_root name).mpr ⟨.normal name, rfl, hnames name hname⟩

/-- Nothing but the names on the way to source paths is expected. -/
theorem expectedEntries_le
    (h : ∀ src ∈ snapshot.paths, Absolute src ∧ snapshot.root <+: src)
    (hnames : ∀ c, OnWay (snapshot.paths.filter fun path => filter.allow path) snapshot.root c →
      c.asOsStr ∈ names) : expectedEntries filter snapshot ≤ names.length := by
  obtain ⟨acc, hcounted, heq⟩ := counted_expectedEntries h filter
  rw [heq]
  refine (List.subperm_of_subset hcounted.nodup_root fun name hname => ?_).length_le
  obtain ⟨c, rfl, hway⟩ := (hcounted.mem_root name).mp hname
  exact hnames c hway

end Expected

/-! ## What a rewrite returns -/

/-- What a rewrite does to the nodes on the way: nothing to a directory, and `P` relates every other
node to the one that replaces it, as long as `I` holds of the memo. -/
structure Processing {μ : Type} (process : μ → Node → Option (Node × μ)) (I : μ → Prop)
    (P : Node → Node → Prop) : Prop where
  dir : ∀ {memo memo' : μ} {node node' : Node}, process memo node = some (node', memo') →
    node.isDir = true → node' = node
  other : ∀ {memo memo' : μ} {node node' : Node}, I memo → process memo node = some (node', memo') →
    node.isDir = false → node'.isDir = false ∧ node'.name = node.name ∧ P node node'
  memo : ∀ {memo memo' : μ} {node node' : Node}, I memo → process memo node = some (node', memo') →
    I memo'

theorem processing_keepNode : Processing keepNode (fun _ => True) Eq where
  dir h _ := by
    cases h
    rfl
  other _ h hdir := by
    cases h
    exact ⟨hdir, rfl, rfl⟩
  memo _ _ := trivial

section Loop

variable {μ : Type} {load : ID → Except StreamError (List Node)} {filter : PathFilter} {env : TreeEnv}
  {process : μ → Node → Option (Node × μ)} {I : μ → Prop} {P : Node → Node → Prop}
  {s s' : RewriteState μ} {stack : List (Path × Node)} {raw : List (Path × StreamNode)} {fuel : Nat}

/-- The loop handles what the stream yields. -/
theorem rewriteLoop_eq (h : Yields (SerializedNodeStream.next load filter) stack
      (raw.map fun x => .ok (x.1, some x.2))) (hfuel : raw.length < fuel) :
    rewriteLoop env load filter process fuel stack s = raw.foldlM (rewriteNode env process) s := by
  induction raw generalizing stack s fuel with
  | nil =>
    obtain ⟨fuel, rfl⟩ : ∃ n, fuel = n + 1 := ⟨fuel - 1, by rw [List.length_nil] at hfuel; omega⟩
    cases h with
    | done hend =>
      rw [rewriteLoop, hend]
      rfl
  | cons item raw ih =>
    obtain ⟨fuel, rfl⟩ : ∃ n, fuel = n + 1 := ⟨fuel - 1, by omega⟩
    rw [List.length_cons] at hfuel
    cases h with
    | item hnext hrest =>
      rw [rewriteLoop, hnext, List.foldlM_cons, Option.bind_eq_bind]
      dsimp only
      exact Option.bind_congr fun t _ => ih hrest (by omega)

/-- A loop that ends had fuel enough. -/
theorem foldlM_of_rewriteLoop (h : Yields (SerializedNodeStream.next load filter) stack
      (raw.map fun x => .ok (x.1, some x.2)))
    (hloop : rewriteLoop env load filter process fuel stack s = some s') :
    raw.foldlM (rewriteNode env process) s = some s' := by
  induction raw generalizing stack s fuel with
  | nil =>
    cases fuel with
    | zero => cases hloop
    | succ fuel =>
      cases h with
      | done hend =>
        rw [rewriteLoop, hend] at hloop
        exact hloop
  | cons item raw ih =>
    cases fuel with
    | zero => cases hloop
    | succ fuel =>
      cases h with
      | item hnext hrest =>
        rw [rewriteLoop, hnext] at hloop
        obtain ⟨t, ht, hloop⟩ := Option.bind_eq_some_iff.mp hloop
        rw [List.foldlM_cons, ht]
        exact ih hrest hloop

/-- A processed node makes an item. -/
theorem Processing.itemOf (h : Processing process I P) {memo memo' : μ} {item : Path × StreamNode}
    {node' : Node} (hI : I memo) (hprocess : process memo item.2.node = some (node', memo')) :
    ItemOf P item (item.1, ⟨node', item.2.numChildren⟩) := by
  refine ⟨rfl, rfl, ?_⟩
  split
  · exact h.dir hprocess ‹_›
  · exact h.other hI hprocess (Bool.eq_false_iff.mpr ‹_›)

/-- The items of the stream, after processing, go to the serializer. -/
theorem Processing.exists_items (h : Processing process I P) (hI : I s.memo)
    (hfold : raw.foldlM (rewriteNode env process) s = some s') :
    ∃ items, List.Forall₂ (ItemOf P) raw items ∧
      items.foldlM (TreeSerializer.handle env) s.serializer = some s'.serializer ∧ I s'.memo := by
  induction raw generalizing s with
  | nil =>
    cases hfold
    exact ⟨[], .nil, rfl, hI⟩
  | cons item raw ih =>
    rw [List.foldlM_cons] at hfold
    obtain ⟨t, ht, hfold⟩ := Option.bind_eq_some_iff.mp hfold
    obtain ⟨⟨node, memo⟩, hprocess, ht⟩ := Option.bind_eq_some_iff.mp ht
    obtain ⟨serializer, hhandle, rfl⟩ := Option.map_eq_some_iff.mp ht
    obtain ⟨items, hitems, hhandles, hI'⟩ := ih (h.memo hI hprocess) hfold
    refine ⟨(item.1, ⟨node, item.2.numChildren⟩) :: items, .cons (h.itemOf hI hprocess) hitems, ?_,
      hI'⟩
    rw [List.foldlM_cons, hhandle]
    exact hhandles

/-- Where no processing fails, an error comes from the serializer only. -/
theorem Processing.exists_items_of_total (h : Processing process I P) (hI : I s.memo)
    (htotal : ∀ item ∈ raw, ∀ memo, I memo → (process memo item.2.node).isSome) :
    ∃ items, List.Forall₂ (ItemOf P) raw items ∧
      (raw.foldlM (rewriteNode env process) s).map RewriteState.serializer =
        items.foldlM (TreeSerializer.handle env) s.serializer := by
  induction raw generalizing s with
  | nil => exact ⟨[], .nil, rfl⟩
  | cons item raw ih =>
    obtain ⟨⟨node, memo⟩, hnode⟩ := Option.isSome_iff_exists.mp
      (htotal item List.mem_cons_self _ hI)
    have htotal' := fun item' hitem' => htotal item' (List.mem_cons_of_mem _ hitem')
    have hI' := h.memo hI hnode
    rw [List.foldlM_cons, rewriteNode, hnode, Option.bind_some]
    dsimp only
    cases hhandle : s.serializer.handle env (item.1, ⟨node, item.2.numChildren⟩) with
    | none =>
      obtain ⟨items, hitems, -⟩ := ih (s := { s with memo }) hI' htotal'
      refine ⟨_ :: items, .cons (h.itemOf hI hnode) hitems, ?_⟩
      rw [List.foldlM_cons, hhandle]
      rfl
    | some serializer =>
      obtain ⟨items, hitems, hfold⟩ := ih (s := ⟨serializer, memo, s.items + 1,
        s.bytes + if node.isFile then node.metadata.size else 0⟩) hI' htotal'
      refine ⟨_ :: items, .cons (h.itemOf hI hnode) hitems, ?_⟩
      rw [List.foldlM_cons, hhandle]
      exact hfold

end Loop

section Amend

variable {μ : Type} {load : ID → Except StreamError (List Node)} {filter : PathFilter} {env : TreeEnv}
  {process : μ → Node → Option (Node × μ)} {I : μ → Prop} {P : Node → Node → Prop}
  {id : ID} {snapshot snapshot' : SnapshotRecord} {fuel : Nat} {memo memo' : μ}

/-- What `rewrite_snapshot_tree` makes of the tree of a snapshot, given what the walk over it
describes. -/
def rewrittenTree (env : TreeEnv) (filter : PathFilter) (snapshot : SnapshotRecord) (nodes : List Node)
    (out : Option (List Node)) : Option ID :=
  (rootResult env (expectedEntries filter snapshot)
    (allowedEntries filter snapshot.root nodes).length out).join

/-- The stream of a stored tree, from its start, yields the walk. -/
theorem SnapshotTree.exists_stream (htree : SnapshotTree load id) (filter : PathFilter)
    (root : Path) :
    ∃ nodes raw stack, load id = .ok nodes ∧
      SerializedNodeStream.new load filter (some id) root = .ok stack ∧
      Yields (SerializedNodeStream.next load filter) stack (raw.map fun x => .ok (x.1, some x.2)) ∧
      FilteredWalk load filter root nodes raw := by
  obtain ⟨nodes, raw, hload, hwalk⟩ := htree.exists_walk filter root
  have hend : Yields (SerializedNodeStream.next load filter) [] [] := .done rfl
  have hyield := hwalk.yields (htree.level hload) hend
  rw [List.append_nil, List.append_nil] at hyield
  refine ⟨nodes, raw, _, hload, ?_, hyield, hwalk⟩
  rw [SerializedNodeStream.new, hload]

/-- **A rewrite that returns** has made the tree of the walk. The rest of the snapshot is as before.
-/
theorem rewriteSnapshotTree_returns (htree : SnapshotTree load snapshot.tree)
    (hprocess : Processing process I P) (hI : I memo)
    (h : rewriteSnapshotTree env load filter process fuel snapshot memo = some (snapshot', memo')) :
    ∃ nodes raw items out, load snapshot.tree = .ok nodes ∧
      Rewrites load filter env P snapshot.root nodes raw items out ∧
      rewrittenTree env filter snapshot nodes out = some snapshot'.tree ∧
      snapshot'.root = snapshot.root ∧ snapshot'.paths = snapshot.paths ∧ I memo' := by
  obtain ⟨nodes, raw, stack, hload, hstack, hyields, hwalk⟩ :=
    htree.exists_stream filter snapshot.root
  rw [rewriteSnapshotTree, hstack] at h
  obtain ⟨s, hloop, h⟩ := Option.bind_eq_some_iff.mp h
  obtain ⟨ts, hts, h⟩ := Option.bind_eq_some_iff.mp h
  obtain ⟨tree, hid, heq⟩ := Option.map_eq_some_iff.mp h
  cases heq
  obtain ⟨items, hitems, hfold, hI'⟩ :=
    hprocess.exists_items hI (foldlM_of_rewriteLoop hyields hloop)
  obtain ⟨out, hout⟩ := hwalk.exists_rewrites (htree.level hload) env hitems
  refine ⟨nodes, raw, items, out, hload, hout, ?_, rfl, rfl, hI'⟩
  rw [rewrittenTree, expectedEntries, ← hout.serialize (htree.level hload).names, TreeSerializer.serialize, hfold]
  dsimp only
  rw [hts, Option.map_some, Option.join_some, hid]

/-- **A rewrite in which no processing fails** returns what the serializer does. -/
theorem rewriteSnapshotTree_eq (env : TreeEnv) (filter : PathFilter)
    (htree : SnapshotTree load snapshot.tree)
    (hprocess : Processing process I P) (hI : I memo)
    (htotal : ∀ nodes path node memo, load snapshot.tree = .ok nodes →
      PathOf load snapshot.root nodes path node → I memo → (process memo node).isSome) :
    ∃ nodes raw items out fuel₀, load snapshot.tree = .ok nodes ∧
      Rewrites load filter env P snapshot.root nodes raw items out ∧ ∀ fuel, fuel₀ ≤ fuel →
        (rewriteSnapshotTree env load filter process fuel snapshot memo).map (fun r => r.1.tree) =
          rewrittenTree env filter snapshot nodes out := by
  obtain ⟨nodes, raw, stack, hload, hstack, hyields, hwalk⟩ :=
    htree.exists_stream filter snapshot.root
  have hpath := hwalk.pathOf (htree.level hload)
  obtain ⟨start, hstart⟩ : ∃ s : RewriteState μ, s = ⟨.new snapshot.root (getIntermediatePaths
    snapshot.root (snapshot.paths.filter fun path => filter.allow path)), memo, 0, 0⟩ := ⟨_, rfl⟩
  obtain ⟨items, hitems, hfold⟩ : ∃ items, List.Forall₂ (ItemOf P) raw items ∧
      (raw.foldlM (rewriteNode env process) start).map RewriteState.serializer =
        items.foldlM (TreeSerializer.handle env) start.serializer :=
    hprocess.exists_items_of_total (by rw [hstart]; exact hI) fun item hitem memo =>
      htotal nodes item.1 item.2.node memo hload (hpath item hitem)
  rw [hstart] at hfold
  obtain ⟨out, hout⟩ := hwalk.exists_rewrites (htree.level hload) env hitems
  refine ⟨nodes, raw, items, out, raw.length + 1, hload, hout, fun fuel hfuel => ?_⟩
  rw [rewrittenTree, expectedEntries, ← hout.serialize (htree.level hload).names, TreeSerializer.serialize, ← hfold,
    rewriteSnapshotTree, hstack]
  dsimp only
  rw [rewriteLoop_eq hyields hfuel]
  cases raw.foldlM (rewriteNode env process) _ with
  | none => rfl
  | some s =>
    rw [Option.bind_some, Option.map_some]
    dsimp only
    cases TreeSerializer.finalizeIfComplete env (s.serializer.snapshotRootPath.length + 1)
        s.serializer s.serializer.snapshotRootPath with
    | none => rfl
    | some ts =>
      rw [Option.bind_some, Option.map_some, Option.join_some, Option.map_map]
      cases ts.rootTreeId <;> rfl

end Amend

end Mapache
