import Mapache.Commands.Rewrite

/-!
# What an amended snapshot has

The paths of the tree that `rewrite_snapshot_tree` stores, compared with those of the tree before.
`Saves` says which trees a rewrite stores, and a repository that reads them back has, below every
directory, exactly the paths that are not excluded (`Rewrites.hasExactly`).

In the root only the first entries are stored, as many as the source paths that are not excluded
have there. So an amended snapshot has exactly the paths that are not excluded if and only if the
stored tree does not have more entries than that in its root (`amend_exact_iff`).
-/

set_option autoImplicit false

namespace Mapache

open Lib

/-- No rule excludes the path or what is above it, up to the root of the snapshot. -/
def Allowed (filter : PathFilter) (root path : Path) : Prop :=
  ∀ above, StrictPrefix root above → above <+: path → filter.allow above = true

/-- A directory may have another tree. `P` says what may become of the others. -/
def SameNode (P : Node → Node → Prop) (node node' : Node) : Prop :=
  if node.isDir then ∃ id, node' = { node with tree := some id } else P node node'

/-- The new level has the paths of the old one that are not excluded, and no others. -/
structure HasExactly (load load' : ID → Except StreamError (List Node)) (filter : PathFilter)
    (P : Node → Node → Prop) (base : Path) (nodes nodes' : List Node) : Prop where
  sound : ∀ path node', PathOf load' base nodes' path node' →
    Allowed filter base path ∧ ∃ node, PathOf load base nodes path node ∧ SameNode P node node'
  complete : ∀ path node, PathOf load base nodes path node → Allowed filter base path →
    ∃ node', PathOf load' base nodes' path node' ∧ SameNode P node node'

/-- The entries of the trees that a rewrite stores below a level. -/
inductive Saves (load : ID → Except StreamError (List Node)) (filter : PathFilter) (env : TreeEnv)
    (P : Node → Node → Prop) : Path → List Node → List Node → Prop where
  | dir {base : Path} {nodes sub sub' : List Node} {node : Node} {id : ID}
      {raw items : List (Path × StreamNode)} : node ∈ nodes →
      filter.allow (entryPath base node) = true → node.tree = some id → load id = .ok sub →
      Rewrites load filter env P (entryPath base node) sub raw items (some sub') →
      Saves load filter env P base nodes sub'
  | under {base : Path} {nodes sub saved : List Node} {node : Node} {id : ID} : node ∈ nodes →
      filter.allow (entryPath base node) = true → node.tree = some id → load id = .ok sub →
      Saves load filter env P (entryPath base node) sub saved →
      Saves load filter env P base nodes saved

section Contents

variable {load load' : ID → Except StreamError (List Node)} {filter : PathFilter} {env : TreeEnv}
  {P : Node → Node → Prop} {base path : Path} {node node' found : Node}
  {nodes nodes' saved : List Node} {raw items : List (Path × StreamNode)}

theorem Saves.of_subset (h : Saves load filter env P base nodes saved) (hsub : nodes ⊆ nodes') :
    Saves load filter env P base nodes' saved := by
  cases h with
  | dir hnode hallow htree hload hwalk => exact .dir (hsub hnode) hallow htree hload hwalk
  | under hnode hallow htree hload hbelow => exact .under (hsub hnode) hallow htree hload hbelow

/-- The paths of a level do not depend on the order of its entries. -/
theorem PathOf.of_subset (h : PathOf load base nodes path found) (hsub : nodes ⊆ nodes') :
    PathOf load base nodes' path found := by
  cases h with
  | entry hmem => exact .entry (hsub hmem)
  | under hmem htree hload hbelow => exact .under (hsub hmem) htree hload hbelow

theorem pathOf_sort : PathOf load base (env.sort nodes) path found ↔
    PathOf load base nodes path found :=
  ⟨fun h => h.of_subset (env.perm nodes).subset, fun h => h.of_subset (env.perm nodes).symm.subset⟩

theorem strictPrefix_entryPath (h : entryPath base node <+: path) : StrictPrefix base path :=
  (StrictPrefix.append_singleton _ _).trans_le h

/-- A path that is not excluded has nothing excluded above it. -/
theorem allowed_iff (h : StrictPrefix base path) :
    Allowed filter base path ↔ filter.allow path = true :=
  ⟨fun hpath => hpath path h (List.prefix_refl path), fun hpath _ _ hle => filter.closed hle hpath⟩

/-- Below an entry of a level the same paths are excluded. -/
theorem allowed_entryPath (h : entryPath base node <+: path) :
    Allowed filter base path ↔
      filter.allow (entryPath base node) = true ∧ Allowed filter (entryPath base node) path := by
  constructor
  · intro hpath
    exact ⟨hpath _ (StrictPrefix.append_singleton _ _) h, fun above hlt hle =>
      hpath above ((StrictPrefix.append_singleton _ _).trans_le hlt.1) hle⟩
  · rintro ⟨hentry, hpath⟩
    rw [allowed_iff (strictPrefix_entryPath h)]
    by_cases heq : entryPath base node = path
    · rw [← heq]
      exact hentry
    · exact hpath path ⟨h, heq⟩ (List.prefix_refl path)

/-- The paths of a stored level, entry by entry. -/
theorem SnapshotLevel.pathOf_cons (h : SnapshotLevel load (node :: nodes)) :
    PathOf load base (node :: nodes) path found ↔
      (path = entryPath base node ∧ found = node) ∨
        (∃ id sub, node.tree = some id ∧ load id = .ok sub ∧
          PathOf load (entryPath base node) sub path found) ∨
        PathOf load base nodes path found := by
  rw [Mapache.pathOf_cons, h.joinName_eq List.mem_cons_self]

theorem SnapshotLevel.prefix_of_pathOf (h : SnapshotLevel load nodes)
    (hpath : PathOf load base nodes path found) : ∃ node ∈ nodes, entryPath base node <+: path := by
  induction hpath with
  | @entry base nodes node hnode => exact ⟨node, hnode, by rw [h.joinName_eq hnode]⟩
  | @under base nodes node id sub path found hnode htree hload _ ih =>
    obtain ⟨node', -, hle⟩ := ih ((h.trees node hnode id htree).level hload)
    rw [h.joinName_eq hnode] at hle
    exact ⟨node, hnode, (List.prefix_append _ _).trans hle⟩

theorem SnapshotLevel.strictPrefix (h : SnapshotLevel load nodes)
    (hpath : PathOf load base nodes path found) : StrictPrefix base path := by
  obtain ⟨node, -, hle⟩ := h.prefix_of_pathOf hpath
  exact strictPrefix_entryPath hle

theorem not_pathOf_nil : ¬ PathOf load base [] path found := by
  intro h
  cases h with
  | entry hmem => cases hmem
  | under hmem => cases hmem

/-- What comes into a level with one more entry of the old tree. -/
theorem HasExactly.skip (h : HasExactly load load' filter P base nodes nodes')
    (hlevel : SnapshotLevel load (node :: nodes))
    (hallow : filter.allow (entryPath base node) = false) :
    HasExactly load load' filter P base (node :: nodes) nodes' where
  sound path found' hpath := by
    obtain ⟨hallowed, found, hfound, hsame⟩ := h.sound path found' hpath
    exact ⟨hallowed, found, hfound.of_subset (List.subset_cons_self _ _), hsame⟩
  complete path found hpath hallowed := by
    have hnot : ¬ entryPath base node <+: path := fun hle => by
      rw [((allowed_entryPath hle).mp hallowed).1] at hallow
      cases hallow
    rcases hlevel.pathOf_cons.mp hpath with ⟨rfl, -⟩ | ⟨id, sub, htree, hload, hbelow⟩ | hrest
    · exact absurd (List.prefix_refl _) hnot
    · have hsub := (hlevel.trees node List.mem_cons_self id htree).level hload
      exact absurd (hsub.strictPrefix hbelow).1 hnot
    · exact h.complete path found hrest hallowed

/-- A node that is kept, in front of the others. `hbelow` is about what is below it. -/
theorem HasExactly.cons (h : HasExactly load load' filter P base nodes nodes')
    (hlevel : SnapshotLevel load (node :: nodes)) (hallow : filter.allow (entryPath base node) = true)
    (hname : node'.name = node.name) (hsame : SameNode P node node')
    (hsound : ∀ id sub, node'.tree = some id → load' id = .ok sub → ∃ id₀ sub₀, node.tree = some id₀ ∧
      load id₀ = .ok sub₀ ∧ HasExactly load load' filter P (entryPath base node) sub₀ sub)
    (hcomplete : ∀ id sub, node.tree = some id → load id = .ok sub → ∃ id' sub',
    node'.tree = some id' ∧
      load' id' = .ok sub' ∧ HasExactly load load' filter P (entryPath base node) sub sub') :
    HasExactly load load' filter P base (node :: nodes) (node' :: nodes') := by
  have hjoin : joinName base node'.nameBytes = entryPath base node := by
    rw [Node.nameBytes, hname]
    exact hlevel.joinName_eq List.mem_cons_self
  have hentry : Allowed filter base (entryPath base node) :=
    (allowed_iff (StrictPrefix.append_singleton _ _)).mpr hallow
  refine ⟨fun path found' hpath => ?_, fun path found hpath hallowed => ?_⟩
  · rw [Mapache.pathOf_cons, hjoin] at hpath
    rcases hpath with ⟨rfl, rfl⟩ | ⟨id, sub, htree, hload, hbelow⟩ | hrest
    · exact ⟨hentry, node, hlevel.pathOf_cons.mpr (Or.inl ⟨rfl, rfl⟩), hsame⟩
    · obtain ⟨id₀, sub₀, htree₀, hload₀, hexact⟩ := hsound id sub htree hload
      obtain ⟨hallowed, found, hfound, hsame'⟩ := hexact.sound path found' hbelow
      have hsub := (hlevel.trees node List.mem_cons_self id₀ htree₀).level hload₀
      exact ⟨(allowed_entryPath (hsub.strictPrefix hfound).1).mpr ⟨hallow, hallowed⟩, found,
        hlevel.pathOf_cons.mpr (Or.inr (Or.inl ⟨id₀, sub₀, htree₀, hload₀, hfound⟩)), hsame'⟩
    · obtain ⟨hallowed, found, hfound, hsame'⟩ := h.sound path found' hrest
      exact ⟨hallowed, found, hfound.of_subset (List.subset_cons_self _ _), hsame'⟩
  · simp only [Mapache.pathOf_cons, hjoin]
    rcases hlevel.pathOf_cons.mp hpath with ⟨rfl, rfl⟩ | ⟨id, sub, htree, hload, hbelow⟩ | hrest
    · exact ⟨node', Or.inl ⟨rfl, rfl⟩, hsame⟩
    · obtain ⟨id', sub', htree', hload', hexact⟩ := hcomplete id sub htree hload
      have hsub := (hlevel.trees node List.mem_cons_self id htree).level hload
      obtain ⟨found', hfound', hsame'⟩ := hexact.complete path found hbelow
        ((allowed_entryPath (hsub.strictPrefix hbelow).1).mp hallowed).2
      exact ⟨found', Or.inr (Or.inl ⟨id', sub', htree', hload', hfound'⟩), hsame'⟩
    · obtain ⟨found', hfound', hsame'⟩ := h.complete path found hrest hallowed
      exact ⟨found', Or.inr (Or.inr hfound'), hsame'⟩

/-- A level is stored in another order. -/
theorem HasExactly.sort (h : HasExactly load load' filter P base nodes nodes') (env : TreeEnv) :
    HasExactly load load' filter P base nodes (env.sort nodes') where
  sound path found' hpath := h.sound path found' (pathOf_sort.mp hpath)
  complete path found hpath hallowed := by
    obtain ⟨found', hfound', hsame⟩ := h.complete path found hpath hallowed
    exact ⟨found', pathOf_sort.mpr hfound', hsame⟩

/-- **The walk over a level has exactly what is not excluded.** -/
theorem Rewrites.hasExactly (h : Rewrites load filter env P base nodes raw items (some nodes'))
    (hlevel : SnapshotLevel load nodes) (hP : ∀ node node', P node node' → node'.tree = node.tree)
    (hstore : ∀ saved id, Saves load filter env P base nodes saved → env.saveToStore saved = some id →
      load' id = .ok (env.sort saved)) :
    HasExactly load load' filter P base nodes nodes' := by
  generalize hout : some nodes' = out at h
  induction h generalizing nodes' with
  | nil =>
    cases hout
    exact ⟨fun _ _ hpath => absurd hpath not_pathOf_nil,
      fun _ _ hpath => absurd hpath not_pathOf_nil⟩
  | skip hallow _ ih =>
    exact (ih hlevel.tail (fun saved id hsaved =>
      hstore saved id (hsaved.of_subset (List.subset_cons_self _ _))) hout).skip hlevel
      hallow
  | @leaf base node node' nodes raw items out hallow htree hdir hname hPnode _ ih =>
    obtain ⟨rest, rfl, rfl⟩ := Option.map_eq_some_iff.mp hout.symm
    have hnotdir : node.isDir = false := by
      rw [hlevel.dirs node List.mem_cons_self, htree]
      rfl
    have htree' : node'.tree = none := (hP node node' hPnode).trans htree
    refine (ih hlevel.tail (fun saved id hsaved =>
      hstore saved id (hsaved.of_subset (List.subset_cons_self _ _))) rfl).cons hlevel
      hallow hname ?_ (fun id sub hid => ?_) fun id sub hid => ?_
    · rw [SameNode, hnotdir]
      exact hPnode
    · rw [htree'] at hid
      cases hid
    · rw [htree] at hid
      cases hid
  | @dir base node id nodes sub rawBelow raw below items subOut out hallow hdir htree hload hnodup hsub
      hrest ihsub ih =>
    obtain ⟨sub', id', rest, rfl, hsave, rfl, rfl⟩ := consDir_eq_some hout.symm
    have hsublevel := (hlevel.trees node List.mem_cons_self id htree).level hload
    have hload' : load' id' = .ok (env.sort sub') :=
      hstore sub' id' (.dir List.mem_cons_self hallow htree hload hsub) hsave
    have hexact : HasExactly load load' filter P (entryPath base node) sub (env.sort sub') :=
      (ihsub hsublevel (fun saved id hsaved => hstore saved id
        (.under List.mem_cons_self hallow htree hload hsaved)) rfl).sort env
    refine (ih hlevel.tail (fun saved id hsaved =>
      hstore saved id (hsaved.of_subset (List.subset_cons_self _ _))) rfl).cons hlevel
      hallow rfl ?_ (fun id'' sub'' hid'' hload'' => ?_) fun id'' sub'' hid'' hload'' => ?_
    · rw [SameNode, if_pos hdir]
      exact ⟨id', rfl⟩
    · cases hid''
      rw [hload'] at hload''
      cases hload''
      exact ⟨id, sub, htree, hload, hexact⟩
    · rw [htree] at hid''
      cases hid''
      rw [hload] at hload''
      cases hload''
      exact ⟨id', _, rfl, hload', hexact⟩

theorem SnapshotLevel.cons (h : SnapshotLevel load nodes) (hname : node.name ∉ nodes.map Node.name)
    (hnormal : SingleNormal node.nameBytes) (hdir : node.isDir = node.tree.isSome)
    (htree : ∀ sub, node.tree = some sub → SnapshotTree load sub) : SnapshotLevel load
    (node :: nodes) where
  names := List.nodup_cons.mpr ⟨hname, h.names⟩
  normal := List.forall_mem_cons.mpr ⟨hnormal, h.normal⟩
  dirs := List.forall_mem_cons.mpr ⟨hdir, h.dirs⟩
  trees := List.forall_mem_cons.mpr ⟨htree, h.trees⟩

/-- No entry after the first one gets its name. -/
theorem Rewrites.name_notMem (h : Rewrites load filter env P base nodes raw items (some nodes'))
    (hlevel : SnapshotLevel load (node :: nodes)) : node.name ∉ nodes'.map Node.name := by
  rw [h.names]
  exact fun hmem => (List.nodup_cons.mp hlevel.names).1 ((List.filter_sublist.map Node.name).subset
    hmem)

/-- **The new tree is one as the serializer makes it.** -/
theorem Rewrites.snapshotLevel (h : Rewrites load filter env P base nodes raw items (some nodes'))
    (hlevel : SnapshotLevel load nodes) (hP : ∀ node node', P node node' → node'.tree = node.tree)
    (hstore : ∀ saved id, Saves load filter env P base nodes saved → env.saveToStore saved = some id →
      load' id = .ok (env.sort saved)) : SnapshotLevel load' nodes' := by
  generalize hout : some nodes' = out at h
  induction h generalizing nodes' with
  | nil =>
    cases hout
    exact ⟨List.nodup_nil, List.forall_mem_nil _, List.forall_mem_nil _, List.forall_mem_nil _⟩
  | skip _ _ ih =>
    exact ih hlevel.tail
      (fun saved id hsaved => hstore saved id (hsaved.of_subset (List.subset_cons_self _ _))) hout
  | @leaf base node node' nodes raw items out hallow htree hdir hname hPnode hrest ih =>
    obtain ⟨rest, rfl, rfl⟩ := Option.map_eq_some_iff.mp hout.symm
    have htree' : node'.tree = none := (hP node node' hPnode).trans htree
    refine (ih hlevel.tail (fun saved id hsaved => hstore saved id
      (hsaved.of_subset (List.subset_cons_self _ _))) rfl).cons ?_ ?_ ?_ ?_
    · rw [hname]
      exact hrest.name_notMem hlevel
    · rw [Node.nameBytes, hname]
      exact hlevel.normal node List.mem_cons_self
    · rw [hdir, htree']
      rfl
    · rw [htree']
      intro sub hsub
      cases hsub
  | @dir base node id nodes sub rawBelow raw below items subOut out hallow hdir htree hload hnodup hsub
      hrest ihsub ih =>
    obtain ⟨sub', id', rest, rfl, hsave, rfl, rfl⟩ := consDir_eq_some hout.symm
    have hload' : load' id' = .ok (env.sort sub') :=
      hstore sub' id' (.dir List.mem_cons_self hallow htree hload hsub) hsave
    have hsublevel : SnapshotLevel load' sub' :=
      ihsub ((hlevel.trees node List.mem_cons_self id htree).level hload)
        (fun saved id hsaved => hstore saved id
          (.under List.mem_cons_self hallow htree hload hsaved)) rfl
    have hname := hrest.name_notMem hlevel
    have hnormal := hlevel.normal node List.mem_cons_self
    refine (ih hlevel.tail (fun saved id hsaved => hstore saved id
      (hsaved.of_subset (List.subset_cons_self _ _))) rfl).cons hname hnormal hdir ?_
    rintro id'' ⟨⟩
    exact (hsublevel.perm (env.perm sub')).tree hload'

end Contents

/-! ## The root -/

section Root

variable {load load' : ID → Except StreamError (List Node)} {filter : PathFilter} {env : TreeEnv}
  {base : Path} {nodes : List Node} {snapshot snapshot' : SnapshotRecord} {fuel : Nat}

/-- After the rewrite the repository reads back what has been stored: the trees of directories, and
the root tree with as many entries as are expected. -/
structure ReadsBack (load load' : ID → Except StreamError (List Node)) (filter : PathFilter)
    (env : TreeEnv)
    (P : Node → Node → Prop) (snapshot : SnapshotRecord) (nodes : List Node) : Prop where
  dir : ∀ saved id, Saves load filter env P snapshot.root nodes saved →
    env.saveToStore saved = some id → load' id = .ok (env.sort saved)
  root : ∀ raw items nodes' id,
    Rewrites load filter env P snapshot.root nodes raw items (some nodes') →
    env.saveToStore (nodes'.take (expectedEntries filter snapshot)) = some id →
    load' id = .ok (env.sort (nodes'.take (expectedEntries filter snapshot)))

theorem SnapshotLevel.left {nodes₁ nodes₂ : List Node} (h : SnapshotLevel load (nodes₁ ++ nodes₂)) :
    SnapshotLevel load nodes₁ := h.sublist (List.sublist_append_left _ _)

/-- What has exactly the first entries of a level misses those of the others that are not excluded.
-/
theorem HasExactly.eq_nil {P P' : Node → Node → Prop} {nodes₁ nodes₂ nodes' : List Node}
    (h : HasExactly load load' filter P' base (nodes₁ ++ nodes₂) nodes')
    (h₁ : HasExactly load load' filter P base nodes₁ nodes')
    (hlevel : SnapshotLevel load (nodes₁ ++ nodes₂)) : allowedEntries filter base nodes₂ = [] := by
  refine List.eq_nil_iff_forall_not_mem.mpr fun lost hlost => ?_
  obtain ⟨hmem, hallow⟩ := List.mem_filter.mp hlost
  have hpath : PathOf load base (nodes₁ ++ nodes₂) (entryPath base lost) lost := by
    rw [← hlevel.joinName_eq (List.mem_append_right _ hmem)]
    exact .entry (List.mem_append_right _ hmem)
  obtain ⟨found', hfound', -⟩ := h.complete _ lost hpath
    ((allowed_iff (StrictPrefix.append_singleton _ _)).mpr hallow)
  obtain ⟨-, found, hfound, -⟩ := h₁.sound _ found' hfound'
  obtain ⟨node, hnode, hle⟩ := hlevel.left.prefix_of_pathOf hfound
  -- the entry on the way has the name of the lost one
  have heq := hle.eq_of_length (by rw [length_entryPath, length_entryPath])
  rw [entryPath, entryPath, List.append_cancel_left_eq, List.singleton_inj,
    Component.normal.injEq] at heq
  have hnames := hlevel.names
  rw [List.map_append] at hnames
  exact (List.nodup_append.mp hnames).2.2 _ (List.mem_map_of_mem hnode) _ (List.mem_map_of_mem hmem)
    (Node.name_eq heq)

/-- Where all other entries of a level are excluded, nothing is missing. -/
theorem HasExactly.append {P : Node → Node → Prop} {nodes₁ nodes₂ nodes' : List Node}
    (h₁ : HasExactly load load' filter P base nodes₁ nodes')
    (hlevel : SnapshotLevel load (nodes₁ ++ nodes₂)) (hnil : allowedEntries filter base nodes₂ = []) :
    HasExactly load load' filter P base (nodes₁ ++ nodes₂) nodes' where
  sound path found' hpath := by
    obtain ⟨hallowed, found, hfound, hsame⟩ := h₁.sound path found' hpath
    exact ⟨hallowed, found, hfound.of_subset (List.subset_append_left _ _), hsame⟩
  complete path found hpath hallowed := by
    have hin : ∀ node ∈ nodes₁ ++ nodes₂, entryPath base node <+: path → node ∈ nodes₁ := by
      intro node hnode hle
      refine (List.mem_append.mp hnode).resolve_right fun hmem => ?_
      exact List.eq_nil_iff_forall_not_mem.mp hnil node
        (List.mem_filter.mpr ⟨hmem, ((allowed_entryPath hle).mp hallowed).1⟩)
    refine h₁.complete path found ?_ hallowed
    cases hpath with
    | entry hnode =>
      rw [hlevel.joinName_eq hnode] at hin ⊢
      rw [← hlevel.joinName_eq hnode]
      exact .entry (hin _ hnode (List.prefix_refl _))
    | @under _ _ node id sub _ _ hnode htree hload hbelow =>
      have hsub := (hlevel.trees node hnode id htree).level hload
      have hbelow' := hbelow
      rw [hlevel.joinName_eq hnode] at hbelow'
      exact .under (hin node hnode (hsub.strictPrefix hbelow').1) htree hload hbelow

/-- A rewrite that returns has stored the first entries of the walk. -/
theorem of_rewrittenTree {out : Option (List Node)} {id : ID}
    (h : rewrittenTree env filter snapshot nodes out = some id) :
    expectedEntries filter snapshot ≤ (allowedEntries filter snapshot.root nodes).length ∧
      ∃ nodes', out = some nodes' ∧
        env.saveToStore (nodes'.take (expectedEntries filter snapshot)) = some id := by
  rw [rewrittenTree, rootResult] at h
  split at h
  · cases out <;> cases h
  · split at h
    · cases h
    · cases out with
      | none => cases h
      | some nodes' =>
        rw [Option.bind_some] at h
        cases hsave : env.saveToStore (nodes'.take (expectedEntries filter snapshot)) with
        | none =>
          rw [hsave] at h
          cases h
        | some id' =>
          rw [hsave] at h
          cases h
          exact ⟨Nat.le_of_not_lt ‹_›, nodes', rfl, hsave⟩

section Stored

variable {μ : Type} {process : μ → Node → Option (Node × μ)} {I : μ → Prop} {P : Node → Node → Prop}
  {memo memo' : μ}

/-- What a rewrite that returns has stored: exactly what is not excluded of the first entries of the
root, as many as the serializer expects there. -/
theorem Processing.exists_stored (hprocess : Processing process I P) (hI : I memo)
    (hP : ∀ node node', P node node' → node'.tree = node.tree)
    (htree : SnapshotTree load snapshot.tree) (hload : load snapshot.tree = .ok nodes)
    (hstore : ReadsBack load load' filter env P snapshot nodes)
    (h : rewriteSnapshotTree env load filter process fuel snapshot memo = some (snapshot', memo')) :
    ∃ nodes₁ nodes₂ nodes', nodes = nodes₁ ++ nodes₂ ∧ load' snapshot'.tree = .ok nodes' ∧
      HasExactly load load' filter P snapshot.root nodes₁ nodes' ∧
      (allowedEntries filter snapshot.root nodes).length =
        expectedEntries filter snapshot + (allowedEntries filter snapshot.root nodes₂).length := by
  obtain ⟨nodes₀, raw, items, out, hload₀, hwalk, hresult, -, -, -⟩ :=
    rewriteSnapshotTree_returns htree hprocess hI h
  rw [hload] at hload₀
  cases hload₀
  obtain ⟨hle, nodes', rfl, hsave⟩ := of_rewrittenTree hresult
  have hload' := hstore.root raw items nodes' _ hwalk hsave
  have hlevel := htree.level hload
  obtain ⟨nodes₁, nodes₂, rfl, hlen⟩ := exists_split_allowed filter snapshot.root hle
  obtain ⟨raw₁, raw₂, items₁, items₂, out₁, out₂, rfl, h₁, h₂, hout⟩ := hwalk.append
  obtain ⟨nodes₁', rfl, hmap⟩ := Option.bind_eq_some_iff.mp hout.symm
  obtain ⟨nodes₂', rfl, rfl⟩ := Option.map_eq_some_iff.mp hmap
  rw [List.take_left' (h₁.length_eq.trans hlen)] at hload'
  have hexact₁ := h₁.hasExactly hlevel.left hP fun saved id hsaved =>
    hstore.dir saved id (hsaved.of_subset (List.subset_append_left _ _))
  refine ⟨nodes₁, nodes₂, _, rfl, hload', hexact₁.sort env, ?_⟩
  rw [allowedEntries_append, List.length_append, hlen]

/-- A rewrite that returns and has exactly what is not excluded was expected to have it. -/
theorem Processing.length_le {P' : Node → Node → Prop} (hprocess : Processing process I P)
    (hI : I memo) (hP : ∀ node node', P node node' → node'.tree = node.tree)
    (htree : SnapshotTree load snapshot.tree) (hload : load snapshot.tree = .ok nodes)
    (hstore : ReadsBack load load' filter env P snapshot nodes)
    (h : rewriteSnapshotTree env load filter process fuel snapshot memo = some (snapshot', memo'))
    {nodes' : List Node} (hload' : load' snapshot'.tree = .ok nodes')
    (hexact : HasExactly load load' filter P' snapshot.root nodes nodes') :
    (allowedEntries filter snapshot.root nodes).length ≤ expectedEntries filter snapshot := by
  obtain ⟨nodes₁, nodes₂, stored, rfl, hstored, hexact₁, hcount⟩ :=
    hprocess.exists_stored hI hP htree hload hstore h
  rw [hstored] at hload'
  cases hload'
  rw [hcount, hexact.eq_nil hexact₁ (htree.level hload), List.length_nil]
  exact le_rfl

/-- **When a rewrite that returns has exactly what is not excluded**: the stored tree has no more of
it in its root than the serializer expects there. -/
theorem Processing.exact_iff (hprocess : Processing process I P) (hI : I memo)
    (hP : ∀ node node', P node node' → node'.tree = node.tree)
    (htree : SnapshotTree load snapshot.tree)
    (hload : load snapshot.tree = .ok nodes)
    (hstore : ReadsBack load load' filter env P snapshot nodes)
    (h : rewriteSnapshotTree env load filter process fuel snapshot memo = some (snapshot', memo')) :
    (∃ nodes', load' snapshot'.tree = .ok nodes' ∧
        HasExactly load load' filter P snapshot.root nodes nodes') ↔
      (allowedEntries filter snapshot.root nodes).length ≤ expectedEntries filter snapshot := by
  constructor
  · rintro ⟨nodes', hload', hexact⟩
    exact hprocess.length_le hI hP htree hload hstore h hload' hexact
  · intro hcount
    obtain ⟨nodes₁, nodes₂, nodes', rfl, hload', hexact₁, heq⟩ :=
      hprocess.exists_stored hI hP htree hload hstore h
    have hnil := List.length_eq_zero_iff.mp (by omega :
      (allowedEntries filter snapshot.root nodes₂).length = 0)
    exact ⟨_, hload', hexact₁.append (htree.level hload) hnil⟩

end Stored

/-- **An amended snapshot has exactly the paths that are not excluded**, each with its node, if and
only if the stored tree has no more of them in its root than the source paths. -/
theorem amend_exact_iff (htree : SnapshotTree load snapshot.tree)
    (hload : load snapshot.tree = .ok nodes)
    (hstore : ReadsBack load load' filter env Eq snapshot nodes)
    (h : rewriteSnapshotTree env load filter keepNode fuel snapshot () = some (snapshot', ())) :
    (∃ nodes', load' snapshot'.tree = .ok nodes' ∧
        HasExactly load load' filter Eq snapshot.root nodes nodes') ↔
      (allowedEntries filter snapshot.root nodes).length ≤ expectedEntries filter snapshot :=
  processing_keepNode.exact_iff trivial (fun _ _ heq => by rw [heq]) htree hload hstore h

end Root

section Sample

/-- A repository that knows these trees, each with its position as ID. -/
def listEnv (trees : List (List Node)) : TreeEnv where
  sort := sortByKey Node.name
  perm := perm_sortByKey Node.name
  sorted := fun nodes => pairwise_sortByKey Node.name nodes
  codec := .ofList trees
  fromContent := fun bytes => Fin.ofNat _ bytes.length

/-- What the repository reads. -/
def loadList (trees : List (List Node)) (id : ID) : Except StreamError (List Node) :=
  match trees[id.val]? with
  | some nodes => .ok nodes
  | none => .error (.internal "no such tree")

theorem loadList_saveToStore {trees : List (List Node)} {saved : List Node} {id : ID}
    (hlen : trees.length < 2 ^ 256) (h : (listEnv trees).saveToStore saved = some id) :
    loadList trees id = .ok ((listEnv trees).sort saved) := by
  obtain ⟨bytes, hbytes, rfl⟩ := Option.map_eq_some_iff.mp h
  have hread := (listEnv trees).codec.fromSlice_toVec _ bytes hbytes
  have hlt : bytes.length < trees.length := (List.getElem?_eq_some_iff.mp hread).1
  have hid : ((listEnv trees).fromContent bytes).val = bytes.length :=
    Nat.mod_eq_of_lt (hlt.trans hlen)
  rw [loadList, hid]
  have hget : trees[bytes.length]? = some ((listEnv trees).sort saved) := hread
  rw [hget]

/-- Only what is below a path is excluded. -/
def excluding (excluded : Path) : PathFilter where
  allow path := !decide (excluded <+: path)
  closed := by
    intro path path' hle h
    rw [Bool.not_eq_true', decide_eq_false_iff_not] at h ⊢
    exact fun hpre => h (hpre.trans hle)

/-- The directory `/a`. -/
def dirA (tree : ID) : Node := { name := "a", nodeType := .directory, tree := some tree }

/-- The directory `/b`. -/
def dirB (tree : ID) : Node := { name := "b", nodeType := .directory, tree := some tree }

/-- The trees of a snapshot of `/a/x` and `/b/y`, the fifth one its root, and those of what is left
of it.
-/
def twoTrees : List (List Node) :=
  [[], [{ name := "x", blobs := some [] }], [{ name := "y", blobs := some [] }], [dirA 0], [dirB 2],
    [dirA 1, dirB 2], [dirA 0, dirB 2]]

def twoSources : SnapshotRecord where
  root := [.rootDir]
  paths := [[.rootDir, .normal [0x61], .normal [0x78]], [.rootDir, .normal [0x62], .normal [0x79]]]
  tree := 5
  processedItemsCount := 4
  processedBytes := 0

theorem snapshotTree_file {load : ID → Except StreamError (List Node)} {id : ID} {node : Node}
    (hload : load id = .ok [node]) (hnormal : SingleNormal node.nameBytes) (hdir : node.isDir = false)
    (htree : node.tree = none) : SnapshotTree load id := by
  refine .mk hload (List.nodup_singleton _) ?_ ?_ ?_
  · simpa using hnormal
  · simp [hdir, htree]
  · simp [htree]

theorem snapshotTree_y : SnapshotTree (loadList twoTrees) 2 :=
  snapshotTree_file rfl (by decide +kernel) rfl rfl

theorem snapshotTree_twoSources : SnapshotTree (loadList twoTrees) twoSources.tree := by
  refine .mk rfl (by decide +kernel) (by decide +kernel) (by decide +kernel)
    fun node hnode sub hsub => ?_
  rcases List.mem_cons.mp hnode with rfl | hnode
  · cases hsub
    exact snapshotTree_file rfl (by decide +kernel) rfl rfl
  · rw [List.mem_singleton.mp hnode] at hsub
    cases hsub
    exact snapshotTree_y

theorem readsBack_listEnv {trees : List (List Node)} (hlen : trees.length < 2 ^ 256)
    (filter : PathFilter)
    (P : Node → Node → Prop) (snapshot : SnapshotRecord) (nodes : List Node) :
    ReadsBack (loadList trees) (loadList trees) filter (listEnv trees) P snapshot nodes where
  dir _ _ _ h := loadList_saveToStore hlen h
  root _ _ _ _ _ h := loadList_saveToStore hlen h

/-- Without `/a` the amended snapshot has `/b` with everything below it. -/
theorem amend_exact_below_b : ∃ nodes', loadList twoTrees 4 = .ok nodes' ∧
    HasExactly (loadList twoTrees) (loadList twoTrees) (excluding [.rootDir, .normal [0x61]]) Eq
      [.rootDir]
      [dirA 1, dirB 2] nodes' := by
  have h : rewriteSnapshotTree (listEnv twoTrees) (loadList twoTrees)
      (excluding [.rootDir, .normal [0x61]]) keepNode 3 twoSources () =
        some ({ twoSources with tree := 4, processedItemsCount := 2 }, ()) := by
    decide +kernel
  exact (amend_exact_iff snapshotTree_twoSources rfl (readsBack_listEnv (by decide) _ _ _ _) h).mpr
    (by decide +kernel)

/-- Without `/a/x` the amended snapshot has an empty `/a` and no `/b`. -/
theorem amend_loses_source :
    rewriteSnapshotTree (listEnv twoTrees) (loadList twoTrees)
      (excluding [.rootDir, .normal [0x61], .normal [0x78]]) keepNode 4 twoSources () =
        some ({ twoSources with tree := 3, processedItemsCount := 3 }, ()) ∧
    loadList twoTrees twoSources.tree = .ok [dirA 1, dirB 2] ∧
    ¬ ∃ nodes', loadList twoTrees 3 = .ok nodes' ∧
      HasExactly (loadList twoTrees) (loadList twoTrees)
        (excluding [.rootDir, .normal [0x61], .normal [0x78]]) Eq [.rootDir] [dirA 1, dirB 2]
          nodes' := by
  refine ⟨by decide +kernel, rfl, ?_⟩
  rintro ⟨nodes', hload, hexact⟩
  have hnodes : nodes' = [dirA 0] := by
    cases hload
    rfl
  have hjoin : joinName [.rootDir] (dirB 2).nameBytes = [.rootDir, .normal [0x62]] := by decide +kernel
  have hpath : PathOf (loadList twoTrees) [.rootDir] [dirA 1, dirB 2] [.rootDir, .normal [0x62]]
      (dirB 2) := by
    rw [← hjoin]
    exact .entry (List.mem_cons_of_mem _ (List.mem_singleton_self _))
  obtain ⟨node', hnode', -⟩ := hexact.complete _ _ hpath
    ((allowed_iff (by decide +kernel)).mpr (by decide +kernel))
  rw [hnodes, pathOf_cons] at hnode'
  rcases hnode' with ⟨hname, -⟩ | ⟨id, sub, htree, hsub, hbelow⟩ | hrest
  · exact absurd hname (by decide +kernel)
  · cases htree
    cases hsub
    exact not_pathOf_nil hbelow
  · exact not_pathOf_nil hrest

end Sample

end Mapache
