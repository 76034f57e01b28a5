import Mapache.Commands.Rechunk

/-!
# Rewriting a snapshot again

A rewrite fails when the root of the tree never becomes complete: the serializer expects an entry
for every child of the root on the way to a source path, and `amend` does not change the source
paths of a snapshot when it takes away all that was there for one of them.

A snapshot whose root has an entry for each of these children (`SourcesPresent`) can be rewritten,
unless every source path below the root is excluded and not all entries of the root
(`FullSnapshot.isSome_iff`). A rewrite that keeps these entries and stores all that is not excluded
keeps it so (`FullSnapshot.rewrite`), and so it is after any number of them (`rewrite_again`).
-/

set_option autoImplicit false

namespace Mapache

open Lib

/-- The root of the stored tree has an entry for every child on the way to a source path. -/
def SourcesPresent (load : ID → Except StreamError (List Node)) (snapshot : SnapshotRecord) : Prop :=
  ∀ nodes, load snapshot.tree = .ok nodes → ∀ c, OnWay snapshot.paths snapshot.root c →
    ∃ node ∈ nodes, c = .normal node.nameBytes

structure FullSnapshot (load : ID → Except StreamError (List Node)) (snapshot : SnapshotRecord) : Prop
    extends StoredSnapshot load snapshot where
  all : SourcesPresent load snapshot

/-- No entry on the way to a source path is excluded, and no more entries are left than the source
paths that are not excluded have in the root. -/
structure KeepsEntries (filter : PathFilter) (snapshot : SnapshotRecord) (nodes : List Node) : Prop where
  onWay : ∀ node ∈ nodes, OnWay snapshot.paths snapshot.root (.normal node.nameBytes) →
    filter.allow (entryPath snapshot.root node) = true
  expected : (allowedEntries filter snapshot.root nodes).length ≤ expectedEntries filter snapshot

/-- A source path below the root is left, or nothing at all. -/
def LeavesSources (filter : PathFilter) (snapshot : SnapshotRecord) (nodes : List Node) : Prop :=
  (∃ src ∈ snapshot.paths, src ≠ snapshot.root ∧ filter.allow src = true) ∨
    allowedEntries filter snapshot.root nodes = []

/-- Storing the trees of a rewrite does not fail. -/
structure StoresAll (load : ID → Except StreamError (List Node)) (filter : PathFilter) (env : TreeEnv)
    (P : Node → Node → Prop) (snapshot : SnapshotRecord) (nodes : List Node) : Prop where
  dir : ∀ saved, Saves load filter env P snapshot.root nodes saved → (env.saveToStore saved).isSome
  root : ∀ raw items nodes', Rewrites load filter env P snapshot.root nodes raw items (some nodes') →
    (env.saveToStore (nodes'.take (expectedEntries filter snapshot))).isSome

/-- A rewrite of a snapshot that keeps the entries on the way to its source paths, with what the
repository reads before and after it. -/
inductive RewriteStep (env : TreeEnv) : (ID → Except StreamError (List Node)) × SnapshotRecord →
    (ID → Except StreamError (List Node)) × SnapshotRecord → Prop where
  | amend {load load' : ID → Except StreamError (List Node)} {snapshot snapshot' : SnapshotRecord}
      {filter : PathFilter} {fuel : Nat} :
      rewriteSnapshotTree env load filter keepNode fuel snapshot () = some (snapshot', ()) →
      (∀ nodes, load snapshot.tree = .ok nodes → ReadsBack load load' filter env Eq snapshot nodes) →
      (∀ nodes, load snapshot.tree = .ok nodes → KeepsEntries filter snapshot nodes) →
      RewriteStep env (load, snapshot) (load', snapshot')
  | rechunk {load load' : ID → Except StreamError (List Node)} {snapshot snapshot' : SnapshotRecord}
      {chunks : RechunkEnv} {s s' : RechunkState} {fuel : Nat} : chunks.toTreeEnv = env →
      Remembers chunks s →
      rewriteSnapshotTree env load .all (rechunkNode chunks) fuel snapshot s = some (snapshot', s') →
      (∀ nodes, load snapshot.tree = .ok nodes →
        ReadsBack load load' .all env (Rechunked chunks) snapshot nodes) →
      RootExpected load snapshot →
      RewriteStep env (load, snapshot) (load', snapshot')

section Again

variable {μ : Type} {env : TreeEnv} {load load' : ID → Except StreamError (List Node)}
  {filter : PathFilter}
  {process : μ → Node → Option (Node × μ)} {I : μ → Prop} {P : Node → Node → Prop}
  {snapshot snapshot' : SnapshotRecord} {nodes : List Node} {fuel : Nat} {memo memo' : μ} {base : Path}
  {raw items : List (Path × StreamNode)} {out : Option (List Node)}

/-- An excluded entry has nothing allowed below it, so all that is expected is there. -/
theorem FullSnapshot.expectedEntries_le (h : FullSnapshot load snapshot)
    (hload : load snapshot.tree = .ok nodes) (filter : PathFilter) :
    expectedEntries filter snapshot ≤ (allowedEntries filter snapshot.root nodes).length := by
  rw [← List.length_map (f := Node.nameBytes)]
  refine Mapache.expectedEntries_le h.below fun c ⟨src, hsrc, hle⟩ => ?_
  obtain ⟨hmem, hallow⟩ := List.mem_filter.mp hsrc
  obtain ⟨node, hnode, rfl⟩ := h.all nodes hload c ⟨src, hmem, hle⟩
  exact List.mem_map_of_mem (List.mem_filter.mpr ⟨hnode, filter.closed hle hallow⟩)

/-- Nothing is expected if and only if no source path below the root is left. -/
theorem StoredSnapshot.expectedEntries_eq_zero_iff (h : StoredSnapshot load snapshot) :
    expectedEntries filter snapshot = 0 ↔
      ∀ src ∈ snapshot.paths, src ≠ snapshot.root → filter.allow src = false := by
  obtain ⟨acc, hcounted, heq⟩ := counted_expectedEntries h.below filter
  have hempty : expectedEntries filter snapshot = 0 ↔ ∀ name, name ∉ acc.1 := by
    rw [heq, List.length_eq_zero_iff]
    exact List.eq_nil_iff_forall_not_mem
  rw [hempty]
  constructor
  · intro hnone src hsrc hne
    by_contra hallow
    rw [Bool.not_eq_false] at hallow
    have hlt : StrictPrefix snapshot.root src := ⟨(h.below src hsrc).2, fun heq => hne heq.symm⟩
    obtain ⟨c, hway⟩ := hlt.exists_next
    exact hnone c.asOsStr ((hcounted.mem_root _).mpr
      ⟨c, rfl, src, List.mem_filter.mpr ⟨hsrc, hallow⟩, hway⟩)
  · intro hall name hname
    obtain ⟨c, -, src, hsrc, hway⟩ := (hcounted.mem_root name).mp hname
    obtain ⟨hmem, hallow⟩ := List.mem_filter.mp hsrc
    have hne : src ≠ snapshot.root := by
      rintro rfl
      exact (StrictPrefix.append_singleton _ c).not_le_self hway
    rw [hall src hmem hne] at hallow
    cases hallow

/-- **A rewrite that keeps the entries on the way to the source paths** makes a full snapshot of a
full one. -/
theorem FullSnapshot.rewrite (h : FullSnapshot load snapshot) (hprocess : Processing process I P)
    (hI : I memo) (hP : ∀ node node', P node node' → node'.tree = node.tree)
    (hload : load snapshot.tree = .ok nodes) (hkeeps : KeepsEntries filter snapshot nodes)
    (hback : ReadsBack load load' filter env P snapshot nodes)
    (hrun : rewriteSnapshotTree env load filter process fuel snapshot memo = some (snapshot', memo')) :
    FullSnapshot load' snapshot' := by
  obtain ⟨nodes₀, raw, items, out, hload₀, hwalk, hresult, hroot, hpaths, -⟩ :=
    rewriteSnapshotTree_returns h.tree hprocess hI hrun
  rw [hload] at hload₀
  cases hload₀
  obtain ⟨-, nodes', rfl, hsave⟩ := of_rewrittenTree hresult
  have hload' := hback.root raw items nodes' _ hwalk hsave
  -- the root is complete only when all its entries have come
  have htake : nodes'.take (expectedEntries filter snapshot) = nodes' := by
    apply List.take_of_length_le
    rw [hwalk.length_eq]
    exact hkeeps.expected
  rw [htake] at hload'
  have hlevel : SnapshotLevel load' (env.sort nodes') :=
    (hwalk.snapshotLevel (h.tree.level hload) hP hback.dir).perm (env.perm nodes')
  refine ⟨⟨hlevel.tree hload', ?_⟩, fun nodes₁ hload₁ c hc => ?_⟩
  · rw [hpaths, hroot]
    exact h.below
  · rw [hload'] at hload₁
    cases hload₁
    rw [hpaths, hroot] at hc
    -- an entry on the way is not excluded, so the new root has its name
    obtain ⟨node, hnode, rfl⟩ := h.all nodes hload c hc
    have hallowed : node ∈ allowedEntries filter snapshot.root nodes :=
      List.mem_filter.mpr ⟨hnode, hkeeps.onWay node hnode hc⟩
    have hname : node.name ∈ (allowedEntries filter snapshot.root nodes).map Node.name :=
      List.mem_map_of_mem hallowed
    rw [← hwalk.names] at hname
    obtain ⟨node', hnode', heq⟩ := List.mem_map.mp hname
    refine ⟨node', (env.perm nodes').mem_iff.mpr hnode', ?_⟩
    rw [Node.nameBytes, Node.nameBytes, heq]

/-- What a run of rewrites starts with stays a full snapshot. -/
theorem RewriteStep.full {state state' : (ID → Except StreamError (List Node)) × SnapshotRecord}
    (h : RewriteStep env state state') (hfull : FullSnapshot state.1 state.2) :
    FullSnapshot state'.1 state'.2 := by
  obtain ⟨nodes, hload⟩ : ∃ nodes, state.1 state.2.tree = .ok nodes := by
    obtain ⟨hload, -⟩ := hfull.tree
    exact ⟨_, hload⟩
  cases h with
  | amend hrun hback hkeeps =>
    exact hfull.rewrite processing_keepNode trivial (fun _ _ heq => by rw [heq]) hload
      (hkeeps _ hload) (hback _ hload) hrun
  | @rechunk load load' snapshot snapshot' chunks s s' fuel henv hs hrun hback hexpected =>
    refine hfull.rewrite (processing_rechunkNode chunks) hs (fun _ _ hnode => by rw [hnode.eq]) hload
      ⟨fun _ _ _ => rfl, ?_⟩ (hback _ hload) hrun
    rw [allowedEntries_all]
    exact hexpected _ hload

theorem full_of_run {state state' : (ID → Except StreamError (List Node)) × SnapshotRecord}
    (h : Relation.ReflTransGen (RewriteStep env) state state') (hfull : FullSnapshot state.1 state.2) :
    FullSnapshot state'.1 state'.2 := by
  induction h with
  | refl => exact hfull
  | tail _ hstep ih => exact hstep.full ih

/-- Where storing does not fail, there are new entries. -/
theorem Rewrites.exists_out (h : Rewrites load filter env P base nodes raw items out)
    (hsaves : ∀ saved, Saves load filter env P base nodes saved → (env.saveToStore saved).isSome) :
    ∃ nodes', out = some nodes' := by
  induction h with
  | nil => exact ⟨[], rfl⟩
  | skip _ _ ih =>
    exact ih fun saved hsaved => hsaves saved (hsaved.of_subset (List.subset_cons_self _ _))
  | leaf _ _ _ _ _ _ ih =>
    obtain ⟨rest, rfl⟩ := ih fun saved hsaved =>
      hsaves saved (hsaved.of_subset (List.subset_cons_self _ _))
    exact ⟨_, rfl⟩
  | dir hallow _ htree hload _ hsub _ ihsub ih =>
    obtain ⟨sub', rfl⟩ := ihsub fun saved hsaved =>
      hsaves saved (.under List.mem_cons_self hallow htree hload hsaved)
    obtain ⟨rest, rfl⟩ := ih fun saved hsaved =>
      hsaves saved (hsaved.of_subset (List.subset_cons_self _ _))
    obtain ⟨id', hid'⟩ := Option.isSome_iff_exists.mp
      (hsaves sub' (.dir List.mem_cons_self hallow htree hload hsub))
    rw [consDir, Option.bind_some, hid', Option.bind_some, Option.map_some]
    exact ⟨_, rfl⟩

/-- **When a rewrite of a full snapshot returns**, with fuel enough and where nothing fails on the
way. -/
theorem FullSnapshot.isSome_iff (h : FullSnapshot load snapshot) (hprocess : Processing process I P)
    (hI : I memo) (hload : load snapshot.tree = .ok nodes)
    (htotal : ∀ path node memo, PathOf load snapshot.root nodes path node → I memo →
      (process memo node).isSome) (hstores : StoresAll load filter env P snapshot nodes) :
    ∃ fuel₀, ∀ fuel, fuel₀ ≤ fuel →
      ((rewriteSnapshotTree env load filter process fuel snapshot memo).isSome ↔
        LeavesSources filter snapshot nodes) := by
  have hnodes : ∀ nodes', load snapshot.tree = .ok nodes' → nodes' = nodes := fun nodes' hload' => by
    rw [hload] at hload'
    cases hload'
    rfl
  obtain ⟨nodes₀, raw, items, out, fuel₀, hload₀, hwalk, heq⟩ :=
    rewriteSnapshotTree_eq env filter h.tree hprocess hI fun nodes' path node memo hload' hpath =>
      htotal path node memo (hnodes nodes' hload' ▸ hpath)
  obtain rfl := hnodes nodes₀ hload₀
  obtain ⟨nodes', rfl⟩ := hwalk.exists_out hstores.dir
  obtain ⟨id, hid⟩ := Option.isSome_iff_exists.mp (hstores.root raw items nodes' hwalk)
  have hle := h.expectedEntries_le hload filter
  refine ⟨fuel₀, fun fuel hfuel => ?_⟩
  rw [← Option.isSome_map (f := fun r : SnapshotRecord × μ => r.1.tree), heq fuel hfuel, rewrittenTree,
    rootResult, if_neg (Nat.not_lt.mpr hle)]
  split
  · -- no entry is expected, and one comes
    rename_i hzero
    refine iff_of_false (by simp) ?_
    rintro (⟨src, hsrc, hne, hallow⟩ | hnil)
    · rw [h.expectedEntries_eq_zero_iff.mp hzero.1 src hsrc hne] at hallow
      cases hallow
    · rw [hnil, List.length_nil] at hzero
      exact absurd hzero.2 (lt_irrefl 0)
  · rename_i hzero
    rw [Option.bind_some, hid]
    refine iff_of_true rfl ?_
    by_cases hnil : allowedEntries filter snapshot.root nodes₀ = []
    · exact Or.inr hnil
    · left
      by_contra hnone
      push Not at hnone
      exact hzero ⟨h.expectedEntries_eq_zero_iff.mpr fun src hsrc hne =>
        Bool.eq_false_iff.mpr (hnone src hsrc hne),
        List.length_pos_iff.mpr hnil⟩

/-- All that is at or below one of the entries is excluded. -/
def excludingEntries (root : Path) (nodes : List Node) : PathFilter where
  allow path := decide (∀ node ∈ nodes, ¬ entryPath root node <+: path)
  closed := by
    intro path path' hle hallow
    rw [decide_eq_true_iff] at hallow ⊢
    exact fun node hnode hpre => hallow node hnode (hpre.trans hle)

/-- Where an entry on the way to a source path is missing, excluding all entries that are there makes
a rewrite fail. -/
theorem StoredSnapshot.exists_failing (h : StoredSnapshot load snapshot)
    (hmissing : ¬ SourcesPresent load snapshot) :
    ∃ filter nodes, load snapshot.tree = .ok nodes ∧ LeavesSources filter snapshot nodes ∧
      ∀ fuel, rewriteSnapshotTree env load filter keepNode fuel snapshot () = none := by
  unfold SourcesPresent at hmissing
  push Not at hmissing
  obtain ⟨nodes, hload, c, ⟨src, hsrc, hway⟩, hmissing⟩ := hmissing
  have hallow : (excludingEntries snapshot.root nodes).allow src = true := by
    refine decide_eq_true fun node hnode hpre => hmissing node hnode ?_
    exact next_unique hway hpre
  have hne : src ≠ snapshot.root := by
    rintro rfl
    exact (StrictPrefix.append_singleton _ c).not_le_self hway
  have hnone : allowedEntries (excludingEntries snapshot.root nodes) snapshot.root nodes = [] := by
    refine List.filter_eq_nil_iff.mpr fun node hnode hentry => ?_
    exact of_decide_eq_true hentry node hnode (List.prefix_refl _)
  refine ⟨_, nodes, hload, Or.inl ⟨src, hsrc, hne, hallow⟩, fun fuel => ?_⟩
  -- the source path counts as an expected entry, and none comes
  cases hrun : rewriteSnapshotTree env load (excludingEntries snapshot.root nodes) keepNode fuel
      snapshot () with
  | none => rfl
  | some r =>
    obtain ⟨nodes₀, raw, items, out, hload₀, -, hresult, -⟩ :=
      rewriteSnapshotTree_returns h.tree processing_keepNode trivial hrun
    rw [hload] at hload₀
    cases hload₀
    have hle := (of_rewrittenTree hresult).1
    rw [hnone, List.length_nil, Nat.le_zero, h.expectedEntries_eq_zero_iff] at hle
    rw [hle src hsrc hne] at hallow
    cases hallow

/-- **Rewriting a snapshot can be repeated** when its root has an entry for every child on the way to
a source path, and every rewrite so far has kept these and stored all that was not excluded: the next
rewrite, with or without rechunking, returns if it leaves a source path below the root or nothing at
all, and fails otherwise. Where such an entry is missing, some rewrite that leaves a source path
fails. -/
theorem rewrite_again {load₀ : ID → Except StreamError (List Node)} {snapshot₀ : SnapshotRecord}
    (hstored : StoredSnapshot load₀ snapshot₀) :
    (SourcesPresent load₀ snapshot₀ → ∀ load snapshot nodes,
      Relation.ReflTransGen (RewriteStep env) (load₀, snapshot₀) (load, snapshot) →
      load snapshot.tree = .ok nodes → ∀ filter : PathFilter,
      (StoresAll load filter env Eq snapshot nodes → ∃ fuel₀, ∀ fuel, fuel₀ ≤ fuel →
        ((rewriteSnapshotTree env load filter keepNode fuel snapshot ()).isSome ↔
          LeavesSources filter snapshot nodes)) ∧
      ∀ (chunks : RechunkEnv) (s : RechunkState), chunks.toTreeEnv = env → Remembers chunks s →
        (∀ path node, PathOf load snapshot.root nodes path node → HasData chunks.store node) →
        (∀ n, chunks.fails n = false) → StoresAll load filter env (Rechunked chunks) snapshot nodes →
        ∃ fuel₀, ∀ fuel, fuel₀ ≤ fuel →
          ((rewriteSnapshotTree env load filter (rechunkNode chunks) fuel snapshot s).isSome ↔
            LeavesSources filter snapshot nodes)) ∧
    (¬ SourcesPresent load₀ snapshot₀ → ∃ filter nodes, load₀ snapshot₀.tree = .ok nodes ∧
      LeavesSources filter snapshot₀ nodes ∧
      ∀ fuel, rewriteSnapshotTree env load₀ filter keepNode fuel snapshot₀ () = none) := by
  refine ⟨fun hpresent load snapshot nodes hrun hload filter => ?_, hstored.exists_failing⟩
  have h := full_of_run hrun ⟨hstored, hpresent⟩
  refine ⟨fun hstores => ?_, fun chunks s henv hs hdata hfails hstores => ?_⟩
  · exact h.isSome_iff processing_keepNode trivial hload (fun _ _ _ _ _ => rfl) hstores
  · exact h.isSome_iff (processing_rechunkNode chunks) hs hload
      (fun path node s hpath _ => rechunkNode_isSome (hdata path node hpath) hfails s) hstores

end Again

section Sample

/-- A snapshot of the directories `/a` and `/b`. -/
def dirSources (tree : ID) : SnapshotRecord where
  root := [.rootDir]
  paths := [[.rootDir, .normal [0x61]], [.rootDir, .normal [0x62]]]
  tree := tree
  processedItemsCount := 4
  processedBytes := 0

/-- A snapshot of this tree with source paths in both directories. -/
theorem full_twoTrees {snapshot : SnapshotRecord} (hroot : snapshot.root = [.rootDir])
    (htree : snapshot.tree = 5)
    (hbelow : ∀ src ∈ snapshot.paths, Absolute src ∧ [.rootDir] <+: src)
    (hway : ∀ c, OnWay snapshot.paths [.rootDir] c ↔ c = .normal [0x61] ∨ c = .normal [0x62]) :
    FullSnapshot (loadList twoTrees) snapshot := by
  have hnames : (dirA 1).nameBytes = [0x61] ∧ (dirB 2).nameBytes = [0x62] := by decide +kernel
  refine ⟨⟨htree ▸ snapshotTree_twoSources, hroot ▸ hbelow⟩, fun nodes hload c hc => ?_⟩
  rw [htree] at hload
  cases hload
  rw [hroot, hway] at hc
  rcases hc with rfl | rfl
  · exact ⟨dirA 1, List.mem_cons_self, by rw [hnames.1]⟩
  · exact ⟨dirB 2, List.mem_cons_of_mem _ (List.mem_singleton_self _), by rw [hnames.2]⟩

theorem full_dirSources : FullSnapshot (loadList twoTrees) (dirSources 5) := by
  refine full_twoTrees rfl rfl (fun src hsrc => ?_) fun c => ?_
  · rcases List.mem_cons.mp hsrc with rfl | hsrc
    · exact ⟨⟨[[0x61]], rfl⟩, by decide +kernel⟩
    · rw [List.mem_singleton.mp hsrc]
      exact ⟨⟨[[0x62]], rfl⟩, by decide +kernel⟩
  · simp [OnWay, dirSources, List.cons_prefix_cons]

theorem full_twoSources : FullSnapshot (loadList twoTrees) twoSources := by
  refine full_twoTrees rfl rfl (fun src hsrc => ?_) fun c => ?_
  · rcases List.mem_cons.mp hsrc with rfl | hsrc
    · exact ⟨⟨[[0x61], [0x78]], rfl⟩, by decide +kernel⟩
    · rw [List.mem_singleton.mp hsrc]
      exact ⟨⟨[[0x62], [0x79]], rfl⟩, by decide +kernel⟩
  · simp [OnWay, twoSources, List.cons_prefix_cons]

/-- A rewrite without excludes that keeps files as they are keeps a level of files. -/
theorem Rewrites.eq_of_files {env : TreeEnv} {load : ID → Except StreamError (List Node)} {base : Path}
    {nodes nodes' : List Node} {raw items : List (Path × StreamNode)}
    (h : Rewrites load .all env Eq base nodes raw items (some nodes'))
    (hfiles : ∀ node ∈ nodes, node.tree = none) : nodes' = nodes := by
  generalize hout : some nodes' = out at h
  induction h generalizing nodes' with
  | nil =>
    cases hout
    rfl
  | skip hallow => cases hallow
  | leaf _ _ _ _ heq _ ih =>
    obtain ⟨rest, rfl, rfl⟩ := Option.map_eq_some_iff.mp hout.symm
    rw [ih (fun node hnode => hfiles node (List.mem_cons_of_mem _ hnode)) rfl, heq]
  | @dir base node id nodes sub rawBelow raw below items subOut out hallow hdir htree =>
    rw [hfiles node List.mem_cons_self] at htree
    cases htree

/-- A directory of files in front of others is stored under the ID it had. -/
theorem Rewrites.eq_of_dir {env : TreeEnv} {load : ID → Except StreamError (List Node)} {base : Path}
    {node : Node} {id : ID} {nodes nodes' sub : List Node} {raw items : List (Path × StreamNode)}
    (h : Rewrites load .all env Eq base (node :: nodes) raw items (some nodes'))
    (htree : node.tree = some id) (hload : load id = .ok sub) (hfiles : ∀ node ∈ sub, node.tree = none)
    (hsave : env.saveToStore sub = some id) :
    ∃ rest raw' items', nodes' = node :: rest ∧ Rewrites load .all env Eq base nodes raw' items'
      (some rest)
    := by
  generalize hout : some nodes' = out at h
  cases h with
  | skip hallow => cases hallow
  | leaf _ hnone =>
    rw [htree] at hnone
    cases hnone
  | dir _ _ htree' hload' _ hsub hrest =>
    rw [htree] at htree'
    cases htree'
    rw [hload] at hload'
    cases hload'
    obtain ⟨sub', id', rest, rfl, hsave', rfl, rfl⟩ := consDir_eq_some hout.symm
    rw [hsub.eq_of_files hfiles, hsave] at hsave'
    cases hsave'
    refine ⟨rest, _, _, ?_, hrest⟩
    rw [← htree]

theorem storesAll_withoutX : StoresAll (loadList twoTrees) .all (listEnv twoTrees) Eq
    { dirSources 6 with processedItemsCount := 3 } [dirA 0, dirB 2] where
  dir saved h := by
    have hfiles : ∀ (id : ID) (sub : List Node), (id = 0 ∨ id = 2) → loadList twoTrees id = .ok sub →
        (∀ node ∈ sub, node.tree = none) ∧ ((listEnv twoTrees).saveToStore sub).isSome := by
      rintro id sub (rfl | rfl) hload
      · cases hload
        exact ⟨by decide +kernel, by decide +kernel⟩
      · cases hload
        exact ⟨by decide +kernel, by decide +kernel⟩
    have htrees : ∀ node ∈ [dirA 0, dirB 2], ∀ id, node.tree = some id → id = 0 ∨ id = 2 := by
      intro node hnode id hid
      rcases List.mem_cons.mp hnode with rfl | hnode
      · exact Or.inl (Option.some.inj hid).symm
      · rw [List.mem_singleton.mp hnode] at hid
        exact Or.inr (Option.some.inj hid).symm
    cases h with
    | dir hnode _ htree hload hwalk =>
      obtain ⟨hsub, hsave⟩ := hfiles _ _ (htrees _ hnode _ htree) hload
      rw [hwalk.eq_of_files hsub]
      exact hsave
    | under hnode _ htree hload hbelow =>
      have hsub := (hfiles _ _ (htrees _ hnode _ htree) hload).1
      cases hbelow with
      | dir hnode' _ htree' =>
        rw [hsub _ hnode'] at htree'
        cases htree'
      | under hnode' _ htree' =>
        rw [hsub _ hnode'] at htree'
        cases htree'
  root raw items nodes' h := by
    obtain ⟨rest, raw₁, items₁, rfl, h₁⟩ := h.eq_of_dir rfl rfl (by decide +kernel) (by decide +kernel)
    obtain ⟨rest, raw₂, items₂, rfl, h₂⟩ := h₁.eq_of_dir rfl rfl (by decide +kernel)
      (by decide +kernel)
    rw [h₂.eq_of_files (List.forall_mem_nil _)]
    decide +kernel

/-- Without `/a/x` the snapshot keeps both directories, and it can be rewritten again. -/
theorem rewrite_again_without_x : ∃ fuel₀, ∀ fuel, fuel₀ ≤ fuel →
    (rewriteSnapshotTree (listEnv twoTrees) (loadList twoTrees) .all keepNode fuel
      { dirSources 6 with processedItemsCount := 3 } ()).isSome := by
  have hstep : RewriteStep (listEnv twoTrees) (loadList twoTrees, dirSources 5)
      (loadList twoTrees, { dirSources 6 with processedItemsCount := 3 }) := by
    have hrun : rewriteSnapshotTree (listEnv twoTrees) (loadList twoTrees)
        (excluding [.rootDir, .normal [0x61], .normal [0x78]]) keepNode 4 (dirSources 5) () =
          some ({ dirSources 6 with processedItemsCount := 3 }, ()) := by
      decide +kernel
    refine .amend hrun (fun nodes _ => readsBack_listEnv (by decide) _ _ _ nodes) fun nodes hload => ?_
    cases hload
    exact ⟨fun node hnode _ => (by decide +kernel : ∀ node ∈ [dirA 1, dirB 2],
      (excluding [.rootDir, .normal [0x61], .normal [0x78]]).allow (entryPath [.rootDir] node) = true)
        node hnode, by decide +kernel⟩
  have hfull := full_dirSources
  obtain ⟨fuel₀, h⟩ := ((rewrite_again hfull.toStoredSnapshot).1 hfull.all _ _ _ (.single hstep) rfl
    .all).1 storesAll_withoutX
  exact ⟨fuel₀, fun fuel hfuel => (h fuel hfuel).mpr
    (Or.inl ⟨[.rootDir, .normal [0x61]], List.mem_cons_self, by decide, rfl⟩)⟩

/-- When `/a` has been taken away, the next rewrite waits for it. -/
theorem rewrite_fails_without_a : FullSnapshot (loadList twoTrees) twoSources ∧
    rewriteSnapshotTree (listEnv twoTrees) (loadList twoTrees) (excluding [.rootDir, .normal [0x61]])
      keepNode 3 twoSources () =
        some ({ twoSources with tree := 4, processedItemsCount := 2 }, ()) ∧
    ∀ fuel, rewriteSnapshotTree (listEnv twoTrees) (loadList twoTrees) .all keepNode fuel
      { twoSources with tree := 4, processedItemsCount := 2 } () = none := by
  refine ⟨full_twoSources, by decide +kernel, fun fuel => ?_⟩
  have htree : SnapshotTree (loadList twoTrees) 4 := by
    refine .mk rfl (by decide +kernel) (by decide +kernel) (by decide +kernel)
      fun node hnode sub hsub => ?_
    rw [List.mem_singleton.mp hnode] at hsub
    cases hsub
    exact snapshotTree_y
  cases hrun : rewriteSnapshotTree (listEnv twoTrees) (loadList twoTrees) .all keepNode fuel
      { twoSources with tree := 4, processedItemsCount := 2 } () with
  | none => rfl
  | some r =>
    obtain ⟨nodes, raw, items, out, hload, -, hresult, -⟩ :=
      rewriteSnapshotTree_returns htree processing_keepNode trivial hrun
    cases hload
    exact absurd (of_rewrittenTree hresult).1 (by decide +kernel)

end Sample

end Mapache
