import Mapache.Restorer.Run

/-!
# Hard links of a restore

A restore into an empty target, followed over the local file system. Every node of the stream is new
at its path, so each file is planned as a whole; it is written with its batch, or it is a secondary
file that is linked to a primary one at the end. `Planned` says what the stream has decided,
`Streaming` and `Linking` say what is already at the paths.

A primary file is always one that is written, and it has the fingerprint of the files that are
linked to it. So when no error is reported every file has the bytes of its own blobs
(`links_keep_content`).
-/

set_option autoImplicit false

namespace Mapache

open Lib

namespace Restorer

/-- The node as a file that is restored as a whole. -/
def wholeItem (n : RestoreNode) : RestoreItem := ⟨n.path, n.node, none⟩

/-- The files among the nodes. -/
def fileItems (nodes : List RestoreNode) : List RestoreItem :=
  (nodes.filter fun n => n.node.nodeType = .file).map wholeItem

/-- What the nodes have to be for a restore into an empty target: nothing is at their paths, which
are different ones, the size of a file is the total of its blobs, and the blobs that the index knows
are stored. Two files have one fingerprint only with one list of blobs. -/
structure FromEmpty (r : Restorer) (plain : ID → Bytes) (fs : LocalFs) : Prop where
  real : r.opts.dryRun = false
  paths : (r.nodes.map RestoreNode.path).Nodup
  absent : ∀ n ∈ r.nodes, fs.entry n.path = .absent
  size_eq : ∀ n ∈ r.nodes, n.node.nodeType = .file →
    n.node.metadata.size = ((wholeItem n).blobs.map fun id => (plain id).length).sum
  stored : ∀ n ∈ r.nodes, n.node.nodeType = .file →
    (wholeItem n).Stored r.env r.backend r.index plain
  collisionFree : ∀ n ∈ r.nodes, ∀ m ∈ r.nodes,
    r.fingerprint (wholeItem n).blobs = r.fingerprint (wholeItem m).blobs →
      (wholeItem n).blobs = (wholeItem m).blobs

/-! ## What is planned -/

/-- The plan of the files among the nodes, each with the primary file it is to be linked to. -/
structure Planned (r : Restorer) (nodes : List RestoreNode)
    (planned : List (PlannedFile × Option Path)) (s : RestorerState) : Prop where
  items : planned.map (fun x => x.1.toRestoreItem) = fileItems nodes
  primaries : Primaries r.fingerprint s.primaries planned
  hardlink : ∀ x ∈ planned, x.1.isHardlink = x.2.isSome
  linked : ∀ x ∈ planned, ∀ primary, x.2 = some primary → ∃ y ∈ planned, y.2 = none ∧
    y.1.path = primary ∧ r.fingerprint y.1.blobs = r.fingerprint x.1.blobs
  links : s.links = pendingLinks planned
  indexed : ∀ x ∈ planned, ∀ id ∈ x.1.blobs, (r.getData id).isSome = true

section Plan

variable {r : Restorer} {plain : ID → Bytes} {fs₀ : LocalFs} {s s' : RestorerState}
  {nodes : List RestoreNode} {planned : List (PlannedFile × Option Path)} {n : RestoreNode}

theorem Planned.start (fs : LocalFs) : Planned r [] [] (r.start fs) where
  items := rfl
  primaries := .empty r.fingerprint
  hardlink x hx := by cases hx
  linked x hx := by cases hx
  links := rfl
  indexed x hx := by cases hx

theorem Planned.congr (h : Planned r nodes planned s) (hprim : s'.primaries = s.primaries)
    (hlinks : s'.links = s.links) : Planned r nodes planned s' :=
  ⟨h.items, hprim ▸ h.primaries, h.hardlink, h.linked, hlinks.trans h.links, h.indexed⟩

/-- A node that is no file is not planned. -/
theorem Planned.other (h : Planned r nodes planned s) (hn : n.node.nodeType ≠ .file) :
    Planned r (nodes ++ [n]) planned s := by
  refine { h with items := ?_ }
  rw [h.items, fileItems, fileItems, List.filter_append, List.map_append]
  simp [hn]

/-- A file joins the plan. -/
theorem Planned.accumulate (h : Planned r nodes planned s) (hn : n.node.nodeType = .file)
    (hindexed : ∀ id ∈ (wholeItem n).blobs, (r.getData id).isSome = true) :
    Planned r (nodes ++ [n])
      (planned ++
        [(⟨wholeItem n, (detectHardlink r.fingerprint s.primaries (wholeItem n)).1.isSome⟩,
          (detectHardlink r.fingerprint s.primaries (wholeItem n)).1)])
      (r.accumulate s (wholeItem n)) where
  items := by
    rw [List.map_append, h.items, fileItems, fileItems, List.filter_append, List.map_append]
    simp [hn]
  primaries := h.primaries.detect (wholeItem n)
  hardlink := by
    intro x hx
    rcases List.mem_append.mp hx with hx | hx
    · exact h.hardlink x hx
    · rw [List.mem_singleton.mp hx]
  linked := by
    intro x hx primary hlink
    rcases List.mem_append.mp hx with hx | hx
    · obtain ⟨y, hy, hrest⟩ := h.linked x hx primary hlink
      exact ⟨y, List.mem_append_left _ hy, hrest⟩
    · rw [List.mem_singleton.mp hx] at hlink ⊢
      dsimp only at hlink ⊢
      rcases detectHardlink_cases r.fingerprint s.primaries (wholeItem n) with
        ⟨key, entry, -, hlookup, hfp, heq⟩ | heq | ⟨key, -, heq⟩
      · rw [heq] at hlink
        cases hlink
        obtain ⟨y, hy, hnone, hpath, -, hyfp⟩ := h.primaries key entry hlookup
        exact ⟨y, List.mem_append_left _ hy, hnone, hpath, hyfp.trans hfp⟩
      · rw [heq] at hlink
        cases hlink
      · rw [heq] at hlink
        cases hlink
  links := by
    change s.links ++ _ = _
    rw [h.links, pendingLinks, pendingLinks, List.filterMap_append]
    cases (detectHardlink r.fingerprint s.primaries (wholeItem n)).1 with
    | none => simp
    | some primary => simp
  indexed := by
    intro x hx
    rcases List.mem_append.mp hx with hx | hx
    · exact h.indexed x hx
    · rw [List.mem_singleton.mp hx]
      exact hindexed

/-- The file of a plan is a node. -/
theorem Planned.exists_node (h : Planned r nodes planned s) {x : PlannedFile × Option Path}
    (hx : x ∈ planned) :
    ∃ n ∈ nodes, n.node.nodeType = .file ∧ x.1.toRestoreItem = wholeItem n := by
  have hmem : x.1.toRestoreItem ∈ fileItems nodes := by
    rw [← h.items]
    exact List.mem_map_of_mem (f := fun x : PlannedFile × Option Path => x.1.toRestoreItem) hx
  obtain ⟨n, hn, heq⟩ := List.mem_map.mp hmem
  obtain ⟨hn, hfile⟩ := List.mem_filter.mp hn
  exact ⟨n, hn, by simpa using hfile, heq.symm⟩

/-- The files of a plan have different paths. -/
theorem Planned.paths (h : Planned r nodes planned s)
    (hnodup : (nodes.map RestoreNode.path).Nodup) : (planned.map fun x => x.1.path).Nodup := by
  have hpaths : planned.map (fun x => x.1.path) =
      (nodes.filter fun n => n.node.nodeType = .file).map RestoreNode.path := by
    have hmap := congrArg (List.map RestoreItem.path) h.items
    rw [fileItems, List.map_map, List.map_map] at hmap
    exact hmap
  rw [hpaths]
  exact hnodup.sublist (List.filter_sublist.map _)

end Plan

/-! ## The stream -/

/-- While the nodes `todo` are still to come: the files that were flushed are there unless they are
links, and nothing is where the batch and the other nodes will be. -/
structure Streaming (r : Restorer) (plain : ID → Bytes) (todo : List RestoreNode)
    (visited : List RestoreNode) (planned : List (PlannedFile × Option Path))
    (flushed : List PlannedFile) (s : RestorerState) : Prop where
  nodes : r.nodes = visited ++ todo
  plan : Planned r visited planned s
  split : planned.map Prod.fst = flushed ++ s.batch
  restored : ∀ f ∈ flushed, f.isHardlink = false →
    s.fs.Agrees f.path (.file (f.content plain))
  todo_absent : ∀ n ∈ todo, s.fs.entry n.path = .absent
  batch_absent : ∀ f ∈ s.batch, s.fs.entry f.path = .absent

section Stream

variable {r : Restorer} {plain : ID → Bytes} {fs₀ : LocalFs} {s s' : RestorerState}
  {l : RestoreLabel} {n : RestoreNode} {todo visited : List RestoreNode}
  {planned : List (PlannedFile × Option Path)} {flushed : List PlannedFile}

theorem Streaming.start (hempty : FromEmpty r plain fs₀) :
    Streaming r plain r.nodes [] [] [] (r.start fs₀) where
  nodes := rfl
  plan := .start fs₀
  split := rfl
  restored f hf := by cases hf
  todo_absent := hempty.absent
  batch_absent f hf := by cases hf

/-- A path at which there is nothing shares no inode. -/
theorem not_shares_of_absent {fs : LocalFs} {p q : Path} (h : fs.entry q = .absent) :
    ¬ fs.Shares p q := by
  rintro ⟨i, -, hq⟩
  rw [h] at hq
  cases hq

/-- The path of a planned file is that of a node that was visited. -/
theorem Streaming.path_mem (h : Streaming r plain todo visited planned flushed s) {f : PlannedFile}
    (hf : f ∈ flushed ++ s.batch) : f.path ∈ visited.map RestoreNode.path := by
  rw [← h.split] at hf
  obtain ⟨x, hx, rfl⟩ := List.mem_map.mp hf
  obtain ⟨m, hm, -, heq⟩ := h.plan.exists_node hx
  have hpath : x.1.path = m.path := congrArg RestoreItem.path heq
  rw [hpath]
  exact List.mem_map_of_mem hm

/-- The node at hand has a path of its own. -/
theorem Streaming.path_ne (h : Streaming r plain (n :: todo) visited planned flushed s)
    (hnodup : (r.nodes.map RestoreNode.path).Nodup) :
    (∀ f ∈ flushed ++ s.batch, f.path ≠ n.path) ∧ ∀ m ∈ todo, m.path ≠ n.path := by
  rw [h.nodes, List.map_append, List.map_cons, List.nodup_append, List.nodup_cons] at hnodup
  obtain ⟨-, ⟨hhead, -⟩, hdisjoint⟩ := hnodup
  refine ⟨fun f hf => hdisjoint _ (h.path_mem hf) _ List.mem_cons_self, fun m hm heq => ?_⟩
  exact hhead (heq ▸ List.mem_map_of_mem (f := RestoreNode.path) hm)

/-- In an empty target every file is planned as a whole. -/
theorem visits_file {effect : NodeEffect} (habsent : s.fs.entry n.path = .absent)
    (hfile : n.node.nodeType = .file) (h : r.Visits s.fs n l effect) : effect = .restore none := by
  cases h with
  | plan _ hstat _ =>
    cases hstat with
    | absent _ => rfl
    | file hentry | symlink hentry | directory hentry =>
      rw [habsent] at hentry
      cases hentry
  | mkdir htype | dirExists htype | dirFail htype | symlink htype | symlinkKept htype
  | symlinkFail htype =>
    rw [hfile] at htype
    cases htype
  | special _ _ htype => exact absurd hfile htype

/-- A node of another type is created or not, and nothing else. -/
theorem Streaming.visit_other (h : Streaming r plain (n :: todo) visited planned flushed s)
    (hnodup : (r.nodes.map RestoreNode.path).Nodup) (hn : n.node.nodeType ≠ .file)
    {fs' : LocalFs} (hfs : fs' = s.fs ∨ ∃ entry, fs' = s.fs.setEntry n.path entry) :
    Streaming r plain todo (visited ++ [n]) planned flushed
      { s with phase := .streaming todo, fs := fs' } := by
  obtain ⟨hfiles, htodo⟩ := h.path_ne hnodup
  have huntouched : ∀ path, path ≠ n.path → LocalFs.Untouched s.fs fs' path := by
    intro path hne
    rcases hfs with rfl | ⟨entry, rfl⟩
    · exact .refl _ _
    · exact LocalFs.untouched_setEntry hne
  refine ⟨by rw [h.nodes, List.append_assoc, List.singleton_append],
    (h.plan.other hn).congr rfl rfl, h.split, fun f hf hlink => ?_, fun m hm => ?_, fun f hf => ?_⟩
  · exact (h.restored f hf hlink).untouched
      (huntouched f.path (hfiles f (List.mem_append_left _ hf)))
  · exact (huntouched m.path (htodo m hm)).entry_eq.trans
      (h.todo_absent m (List.mem_cons_of_mem n hm))
  · exact (huntouched f.path (hfiles f (List.mem_append_right _ hf))).entry_eq.trans
      (h.batch_absent f hf)

/-- A file joins the batch, and all its blobs are known. -/
theorem Streaming.visit_file (h : Streaming r plain (n :: todo) visited planned flushed s)
    (hn : n.node.nodeType = .file)
    (hindexed : ∀ id ∈ (wholeItem n).blobs, (r.getData id).isSome = true) :
    Streaming r plain todo (visited ++ [n])
      (planned ++
        [(⟨wholeItem n, (detectHardlink r.fingerprint s.primaries (wholeItem n)).1.isSome⟩,
          (detectHardlink r.fingerprint s.primaries (wholeItem n)).1)]) flushed
      (r.accumulate { s with phase := .streaming todo } (wholeItem n)) := by
  refine ⟨by rw [h.nodes, List.append_assoc, List.singleton_append],
    (h.plan.accumulate hn hindexed).congr rfl rfl, ?_, h.restored,
    fun m hm => h.todo_absent m (List.mem_cons_of_mem n hm), fun f hf => ?_⟩
  · rw [List.map_append, h.split, List.append_assoc]
    rfl
  · rcases List.mem_append.mp hf with hf | hf
    · exact h.batch_absent f hf
    · rw [List.mem_singleton.mp hf]
      exact h.todo_absent n List.mem_cons_self

/-- The files of the batch can be restored, whatever is at their paths. -/
theorem Streaming.faithful (h : Streaming r plain todo visited planned flushed s)
    (hempty : FromEmpty r plain fs₀) {f : PlannedFile} (hf : f ∈ s.batch)
    (view : Path → LocalEntry) :
    f.Faithful r.env r.backend r.index plain view ∧
      ∀ id ∈ f.blobs, (r.getData id).isSome = true := by
  have hmem : f ∈ planned.map Prod.fst := by
    rw [h.split]
    exact List.mem_append_right _ hf
  obtain ⟨x, hx, rfl⟩ := List.mem_map.mp hmem
  obtain ⟨m, hm, hfile, heq⟩ := h.plan.exists_node hx
  have hnode : m ∈ r.nodes := by
    rw [h.nodes]
    exact List.mem_append_left _ hm
  refine ⟨?_, h.plan.indexed x hx⟩
  rw [heq]
  exact ⟨hempty.size_eq m hnode hfile, hempty.stored m hnode hfile,
    fun changed hchanged => by cases hchanged⟩

/-- The paths of the batch, and of what was flushed before. -/
theorem Streaming.flushed_paths (h : Streaming r plain todo visited planned flushed s)
    (hnodup : (r.nodes.map RestoreNode.path).Nodup) :
    (s.batch.map fun f => f.path).Nodup ∧
      ∀ f ∈ flushed, f.path ∉ s.batch.map fun f => f.path := by
  have hvisited : (visited.map RestoreNode.path).Nodup := by
    rw [h.nodes, List.map_append] at hnodup
    exact (List.nodup_append.mp hnodup).1
  have hpaths := h.plan.paths hvisited
  have hsplit : planned.map (fun x => x.1.path) = (flushed ++ s.batch).map fun f => f.path := by
    rw [← h.split, List.map_map]
    rfl
  rw [hsplit, List.map_append, List.nodup_append] at hpaths
  refine ⟨hpaths.2.1, fun f hf hmem => ?_⟩
  exact hpaths.2.2 _ (List.mem_map_of_mem (f := fun f : PlannedFile => f.path) hf) _ hmem rfl

/-- A batch is flushed: its files get the bytes of their blobs, and nothing else changes. -/
theorem Streaming.flush (h : Streaming r plain todo visited planned flushed s)
    (hempty : FromEmpty r plain fs₀) {packs : RestoreState} {fs' : LocalFs}
    (hflush : r.Flushes s packs fs') (hdone : packs.Done) (hok : packs.failed = false) :
    Streaming r plain todo visited planned (flushed ++ s.batch)
      { s with fs := fs', batch := [] } := by
  obtain ⟨hbatch, hflushed⟩ := h.flushed_paths hempty.paths
  obtain ⟨log, hdoes, hops, hlog⟩ := hflush.exists_log
  -- there is nothing at the paths of the log before the flush
  have halone : ∀ p, ∀ q ∈ log.map Prod.fst, ¬ s.fs.Shares p q := by
    intro p q hq
    obtain ⟨f, hf, rfl⟩ := List.mem_map.mp (hlog q hq)
    exact not_shares_of_absent (h.batch_absent f hf)
  have huntouched : ∀ p, p ∉ s.batch.map (fun f => f.path) → LocalFs.Untouched s.fs fs' p :=
    fun p hp => hdoes.untouched (fun hmem => hp (hlog p hmem)) (halone p)
  refine ⟨h.nodes, h.plan.congr rfl rfl, by rw [List.append_nil]; exact h.split,
    fun f hf hlink => ?_, fun m hm => ?_, fun f hf => by cases hf⟩
  · rcases List.mem_append.mp hf with hf | hf
    · exact (h.restored f hf hlink).untouched (huntouched f.path (hflushed f hf))
    · obtain ⟨order, ls, -, horder, hrun, -, -⟩ := hflush
      obtain ⟨i, hi⟩ := List.mem_iff_getElem?.mp hf
      obtain ⟨hfaithful, hindexed⟩ := h.faithful hempty hf (s.fs.view r.leadsTo)
      have hgoal := fileGoal_of_faithful hfaithful hindexed hi
      have hlocated : ∀ q ∈ batchRequests r.getData s.batch, r.getData q.blobId = some q.locator :=
        located_batchRequests fun id l hget => (MasterIndex.mem_of_getData hget).2
      have hcontent := RestoreState.content_eq_of_done hgoal hlocated
        (fun p hp => covered_of_faithful hfaithful hindexed hi hlink hp) horder hrun hdone hok
      have hview : s.fs.Agrees f.path (s.fs.view r.leadsTo f.path) := LocalFs.agrees_view
      have hagrees := hdoes.agrees (fun q hq _ => halone f.path q hq) hview
      rw [hops, batchOps_of_getElem? hbatch hi] at hagrees
      rw [entriesOf, hi] at hcontent
      rw [← hcontent]
      exact hagrees
  · refine (huntouched m.path fun hmem => ?_).entry_eq.trans (h.todo_absent m hm)
    -- the node is still to come, so it is not in the batch
    obtain ⟨f, hf, hpath⟩ := List.mem_map.mp hmem
    have hnodup := hempty.paths
    rw [h.nodes, List.map_append, List.nodup_append] at hnodup
    exact hnodup.2.2 _ (h.path_mem (List.mem_append_right _ hf)) _
      (List.mem_map_of_mem (f := RestoreNode.path) hm) hpath

end Stream

/-! ## The links -/

/-- While the links `todo` are still to be made: every other file is there. -/
structure Linking (r : Restorer) (plain : ID → Bytes) (todo : List (Path × Path))
    (planned : List (PlannedFile × Option Path)) (s : RestorerState) : Prop where
  plan : Planned r r.nodes planned s
  todo_links : ∀ link ∈ todo, link ∈ pendingLinks planned
  restored : ∀ x ∈ planned, x.2 = none ∨ x.1.path ∉ todo.map Prod.fst →
    s.fs.Agrees x.1.path (.file (x.1.content plain))

/-- Every file has the bytes of its blobs. -/
def AllRestored (r : Restorer) (plain : ID → Bytes) (fs : LocalFs) : Prop :=
  ∀ n ∈ r.nodes, n.node.nodeType = .file →
    fs.Agrees n.path (.file ((wholeItem n).content plain))

section Link

variable {r : Restorer} {plain : ID → Bytes} {fs₀ : LocalFs} {s : RestorerState}
  {visited : List RestoreNode} {planned : List (PlannedFile × Option Path)}
  {flushed : List PlannedFile} {todo : List (Path × Path)} {path primary : Path}

/-- The stream is over and the last batch is flushed. -/
theorem Streaming.linking (h : Streaming r plain [] visited planned flushed s)
    (hbatch : s.batch = []) :
    Linking r plain s.links planned { s with phase := .linking s.links } := by
  have hnodes : r.nodes = visited := by rw [h.nodes, List.append_nil]
  have hplan : Planned r r.nodes planned s := hnodes ▸ h.plan
  refine ⟨hplan.congr rfl rfl, fun link hlink => hplan.links ▸ hlink, fun x hx hdone => ?_⟩
  have hmem : x.1 ∈ flushed := by
    have hsplit := h.split
    rw [hbatch, List.append_nil] at hsplit
    rw [← hsplit]
    exact List.mem_map_of_mem hx
  refine h.restored x.1 hmem ?_
  rw [hplan.hardlink x hx]
  cases hlink : x.2 with
  | none => rfl
  | some primary =>
    -- a file that is to be linked is among the links
    have hpending : (x.1.path, primary) ∈ s.links := by
      rw [hplan.links]
      exact List.mem_filterMap.mpr ⟨x, hx, by rw [hlink, Option.map_some]⟩
    rcases hdone with hnone | hnotMem
    · rw [hlink] at hnone
      cases hnone
    · exact absurd (List.mem_map_of_mem (f := Prod.fst) hpending) hnotMem

/-- A link is made: the path gets the inode of the primary file, which has the same blobs. -/
theorem Linking.link (h : Linking r plain ((path, primary) :: todo) planned s)
    (hempty : FromEmpty r plain fs₀) :
    Linking r plain todo planned
      { s with phase := .linking todo, fs := s.fs.setEntry path (s.fs.entry primary) } := by
  refine ⟨h.plan.congr rfl rfl, fun link hlink => h.todo_links link (List.mem_cons_of_mem _ hlink),
    fun x hx hdone => ?_⟩
  have hpaths := h.plan.paths hempty.paths
  obtain ⟨x₀, hx₀, hlink⟩ := List.mem_filterMap.mp (h.todo_links _ List.mem_cons_self)
  obtain ⟨primary', hprimary, heq⟩ := Option.map_eq_some_iff.mp hlink
  cases heq
  by_cases hsame : x.1.path = x₀.1.path
  · -- it is the file that the link is for
    obtain rfl : x = x₀ := List.inj_on_of_nodup_map hpaths hx hx₀ hsame
    obtain ⟨y, hy, hnone, rfl, hfp⟩ := h.plan.linked x hx primary hprimary
    obtain ⟨i, hentry, hbytes⟩ := h.restored y hy (.inl hnone)
    obtain ⟨m, hm, -, hm'⟩ := h.plan.exists_node hx
    obtain ⟨k, hk, -, hk'⟩ := h.plan.exists_node hy
    rw [hm', hk'] at hfp
    have hblobs := hempty.collisionFree k hk m hm hfp
    refine ⟨i, ?_, ?_⟩
    · dsimp only
      rw [LocalFs.setEntry_entry, Function.update_self, hentry]
    · dsimp only
      rw [LocalFs.setEntry_bytes, hbytes, RestoreItem.content, RestoreItem.content, hm', hk',
        hblobs]
  · refine (h.restored x hx (hdone.imp_right fun hnotMem => ?_)).untouched
      (LocalFs.untouched_setEntry hsame)
    rw [List.map_cons, List.mem_cons, not_or]
    exact ⟨hsame, hnotMem⟩

theorem Linking.allRestored (h : Linking r plain [] planned s) : AllRestored r plain s.fs := by
  intro n hn hfile
  have hmem : wholeItem n ∈ planned.map fun x => x.1.toRestoreItem := by
    rw [h.plan.items]
    exact List.mem_map_of_mem (List.mem_filter.mpr ⟨hn, by simpa using hfile⟩)
  obtain ⟨x, hx, heq⟩ := List.mem_map.mp hmem
  have hagrees := h.restored x hx (.inr List.not_mem_nil)
  rw [heq] at hagrees
  exact hagrees

end Link

/-! ## The whole run -/

/-- What holds in a state of a run without errors. -/
def Good (r : Restorer) (plain : ID → Bytes) (s : RestorerState) : Prop :=
  match s.phase with
  | .streaming todo => ∃ visited planned flushed, Streaming r plain todo visited planned flushed s
  | .linking todo => ∃ planned, Linking r plain todo planned s
  | .metadata _ => AllRestored r plain s.fs
  | .finished ok => ok = true → AllRestored r plain s.fs

section Run

variable {r : Restorer} {plain : ID → Bytes} {fs₀ fs' : LocalFs} {s s' : RestorerState}
  {l : RestoreLabel} {n : RestoreNode}

theorem Good.streaming {todo : List RestoreNode} (h : Good r plain s)
    (hphase : s.phase = .streaming todo) :
    ∃ visited planned flushed, Streaming r plain todo visited planned flushed s := by
  unfold Good at h
  rwa [hphase] at h

theorem Good.of_streaming {todo visited : List RestoreNode}
    {planned : List (PlannedFile × Option Path)} {flushed : List PlannedFile}
    (h : Streaming r plain todo visited planned flushed s) (hphase : s.phase = .streaming todo) :
    Good r plain s := by
  unfold Good
  rw [hphase]
  exact ⟨visited, planned, flushed, h⟩

theorem Good.linking {todo : List (Path × Path)} (h : Good r plain s)
    (hphase : s.phase = .linking todo) : ∃ planned, Linking r plain todo planned s := by
  unfold Good at h
  rwa [hphase] at h

theorem Good.metadata {todo : List RestoreNode} (h : Good r plain s)
    (hphase : s.phase = .metadata todo) : AllRestored r plain s.fs := by
  unfold Good at h
  rwa [hphase] at h

/-- Setting a time leaves the bytes. -/
theorem AllRestored.setsTime (h : AllRestored r plain s.fs) (htime : r.SetsTime s.fs n fs') :
    AllRestored r plain fs' := by
  intro m hm hfile
  obtain ⟨i, hentry, hbytes⟩ := h m hm hfile
  cases htime with
  | kept => exact ⟨i, hentry, hbytes⟩
  | own | followed => exact ⟨i, hentry, hbytes⟩

/-- A node of the stream, when no error is reported. -/
theorem Good.visit {todo : List RestoreNode} {effect : NodeEffect} (h : Good r plain s)
    (hempty : FromEmpty r plain fs₀) (hphase : s.phase = .streaming (n :: todo))
    (hvisit : r.Visits s.fs n l effect) (herrors : (r.visited s n todo effect).errors = []) :
    Good r plain (r.visited s n todo effect) := by
  obtain ⟨visited, planned, flushed, hstream⟩ := h.streaming hphase
  by_cases hfile : n.node.nodeType = .file
  · obtain rfl := visits_file (hstream.todo_absent n List.mem_cons_self) hfile hvisit
    have hindexed : ∀ id ∈ (wholeItem n).blobs, (r.getData id).isSome = true := by
      change s.errors ++ ((wholeItem n).blobs.filter fun id => (r.getData id).isNone).map _ = []
        at herrors
      rw [List.append_eq_nil_iff, List.map_eq_nil_iff, List.filter_eq_nil_iff] at herrors
      intro id hid
      refine Option.isSome_iff_ne_none.mpr ?_
      simpa using herrors.2 id hid
    exact ⟨_, _, _, hstream.visit_file hfile hindexed⟩
  · cases effect with
    | nothing => exact ⟨_, _, _, hstream.visit_other hempty.paths hfile (.inl rfl)⟩
    | create entry => exact ⟨_, _, _, hstream.visit_other hempty.paths hfile (.inr ⟨entry, rfl⟩)⟩
    | error stops => simp [Restorer.visited] at herrors
    | restore changed => exact absurd hvisit.restore.1 hfile

/-- A step that reports no error. -/
theorem Good.step (h : Good r plain s) (hempty : FromEmpty r plain fs₀) (hstep : r.Step s l s')
    (herrors : s'.errors = []) : Good r plain s' := by
  cases hstep with
  | visit hphase hfull hvisit => exact h.visit hempty hphase hvisit herrors
  | badPath | streamFail | flushFail | linkFail => simp at herrors
  | flushDry hphase hdue hdry =>
    rw [hempty.real] at hdry
    cases hdry
  | flush hphase hdue hdry hflush hdone hok =>
    obtain ⟨visited, planned, flushed, hstream⟩ := h.streaming hphase
    exact .of_streaming (hstream.flush hempty hflush hdone hok) hphase
  | startLinks hphase hbatch =>
    obtain ⟨visited, planned, flushed, hstream⟩ := h.streaming hphase
    rw [hempty.real]
    exact ⟨planned, hstream.linking hbatch⟩
  | link hphase hpath habsent hdir =>
    obtain ⟨planned, hlinking⟩ := h.linking hphase
    exact ⟨planned, hlinking.link hempty⟩
  | startMetadata hphase =>
    obtain ⟨planned, hlinking⟩ := h.linking hphase
    rw [hempty.real]
    exact hlinking.allRestored
  | metadata hphase hdirs htime => exact (h.metadata hphase).setsTime htime
  | finish hphase => exact fun _ => h.metadata hphase
  | flushAbort | linkAbort | interrupt => exact fun hfalse => by cases hfalse

/-- **Hard links keep the content.** After a restore into an empty target that ends well and reports
no error, in batches of any size, every file has the bytes of its own blobs, be it written or linked
to another file. -/
theorem links_keep_content {ls : List RestoreLabel} (hempty : FromEmpty r plain fs₀)
    (hrun : Run r.Step (r.start fs₀) ls s) (hend : s.phase = .finished true)
    (herrors : s.errors = []) :
    ∀ n ∈ r.nodes, n.node.nodeType = .file →
      ∃ i, s.fs.entry n.path = .file i ∧ s.fs.bytes i = (n.node.blobs.getD []).flatMap plain := by
  have hgood : s.errors = [] → Good r plain s := by
    refine hrun.invariant (P := fun s => s.errors = [] → Good r plain s)
      (fun s l s' h hstep herr => ?_) fun _ => ⟨_, _, _, .start hempty⟩
    refine (h ?_).step hempty hstep herr
    obtain ⟨more, hmore⟩ := hstep.errors_append
    rw [hmore, List.append_eq_nil_iff] at herr
    exact herr.1
  have hall := hgood herrors
  unfold Good at hall
  rw [hend] at hall
  exact hall rfl

end Run

/-! ## Two names of one file -/

/-- The file of the two blobs, under one of its two names. -/
def linkedNode (name : UInt8) : RestoreNode where
  path := [.normal [name]]
  node :=
    { name := "a"
      metadata := { size := 2, inode := some 7, dev := some 1, nlink := some 2 }
      blobs := some [5, 6] }
  symlinkTarget := none

/-- A restore of both names, in batches of one file. -/
def linkedRestorer : Restorer :=
  { patchRestorer .overwrite with
    opts := ⟨.overwrite, false, false, false, some 1⟩
    nodes := [linkedNode 97, linkedNode 98] }

/-- An empty target. -/
def emptyFs : LocalFs := ⟨fun _ => .absent, fun _ => [], fun _ => 0⟩

theorem linked_fromEmpty : FromEmpty linkedRestorer samplePlain emptyFs where
  real := rfl
  paths := by decide
  absent _ _ := rfl
  size_eq := by
    intro n hn _
    rcases List.mem_pair.mp hn with rfl | rfl
    · rfl
    · rfl
  stored := by
    intro n hn _
    rcases List.mem_pair.mp hn with rfl | rfl
    · exact sample_stored none
    · exact sample_stored none
  collisionFree := by
    intro n hn m hm _
    rcases List.mem_pair.mp hn with rfl | rfl <;> rcases List.mem_pair.mp hm with rfl | rfl <;> rfl

/-- The first name is written. -/
theorem flushes_primary {s : RestorerState} (hfs : s.fs = emptyFs)
    (hbatch : s.batch = [⟨wholeItem (linkedNode 97), false⟩]) :
    ∃ packs fs', linkedRestorer.Flushes s packs fs' ∧ packs.Done ∧ packs.failed = false ∧
      fs'.entry [.normal [98]] = .absent ∧ ∃ i, fs'.entry [.normal [97]] = .file i := by
  obtain ⟨fs', hdoes⟩ := LocalFs.exists_does [.normal [97]]
    [.truncate, .setLen 2, .write 1 [6], .write 0 [5]] emptyFs 0 fun q i hq => by cases hq
  have halone : ∀ p q, ¬ emptyFs.Shares p q := fun p q => not_shares_of_absent rfl
  have hhandle : GetHandle false
      (PlannedFile.plan linkedRestorer.getData ⟨wholeItem (linkedNode 97), false⟩) 0 .absent
      (.new 1) false ((FileHandleCache.new 1).evict.insert 0) true [.truncate, .setLen 2] true :=
    .create (by decide) rfl (.sized (by decide) (by decide) (by decide) fun _ => rfl)
  obtain ⟨ls, hrun⟩ : ∃ ls, Run (RestoreState.Step restoreEnv restoreConfig restoreBackend
        [PlannedFile.plan linkedRestorer.getData ⟨wholeItem (linkedNode 97), false⟩]
        (batchRequests linkedRestorer.getData [⟨wholeItem (linkedNode 97), false⟩])
        (entriesOf [⟨wholeItem (linkedNode 97), false⟩] (emptyFs.view linkedRestorer.leadsTo)))
      (RestoreState.start restoreConfig
        [PlannedFile.plan linkedRestorer.getData ⟨wholeItem (linkedNode 97), false⟩]
        [⟨20, 0, 4, [(5, ⟨20, 0, 2, 1, .data⟩), (6, ⟨20, 2, 2, 1, .data⟩)]⟩]) ls
      (restoreWritten ([.truncate, .setLen 2] ++ writeOps [([6], 1), ([5], 0)]) []) :=
    run_single rfl rfl (by decide) (by decide) (by decide) hhandle
  refine ⟨restoreWritten [.truncate, .setLen 2, .write 1 [6], .write 0 [5]] [], fs',
    ⟨packBlobs (batchRequests linkedRestorer.getData s.batch), ls, _, .refl _, ?_, fun path => ?_,
      hfs ▸ hdoes⟩, ⟨rfl, rfl⟩, rfl, ?_, ?_⟩
  · rw [hbatch, hfs]
    exact hrun
  · rw [hbatch]
    by_cases hpath : path = [.normal [97]]
    · subst hpath
      rfl
    · rw [batchOps_of_notMem fun hmem => hpath (List.mem_singleton.mp hmem), LocalFs.opsAt_eq_nil]
      intro hmem
      exact hpath (List.eq_of_mem_replicate (n := 4) hmem)
  · exact (hdoes.untouched (by decide) fun q _ => halone _ q).entry_eq
  · have hempty : emptyFs.Agrees [.normal [97]] .absent := rfl
    have hagrees : fs'.Agrees [.normal [97]] (.file [5, 6]) :=
      hdoes.agrees (fun q _ _ => halone _ q) hempty
    obtain ⟨i, hentry, -⟩ := hagrees
    exact ⟨i, hentry⟩

/-- The second name needs nothing but the link. -/
theorem flushes_secondary {s : RestorerState}
    (hbatch : s.batch = [⟨wholeItem (linkedNode 98), true⟩]) :
    ∃ packs, linkedRestorer.Flushes s packs s.fs ∧ packs.Done ∧ packs.failed = false := by
  have hreq : batchRequests linkedRestorer.getData s.batch = [] := by
    rw [hbatch]
    rfl
  have hskip : RestoreState.Step restoreEnv restoreConfig restoreBackend
      (s.batch.map (PlannedFile.plan linkedRestorer.getData))
      (batchRequests linkedRestorer.getData s.batch)
      (entriesOf s.batch (s.fs.view linkedRestorer.leadsTo))
      (RestoreState.start restoreConfig
        (s.batch.map (PlannedFile.plan linkedRestorer.getData)) []) ()
      (restoreUnwritten [] []) := by
    rw [hbatch]
    exact .skip rfl rfl rfl
  refine ⟨_, ⟨[], _, [], ?_, Run.nil.snoc hskip, fun path => ?_, .nil⟩, ⟨rfl, rfl⟩, rfl⟩
  · rw [hreq]
    exact .refl _
  · rw [hbatch, batchOps]
    split <;> rfl

/-- The primary file of the two names. -/
def linkedPrimaries : Table (Nat × Nat) (Path × ID) :=
  AList.insert (1, 7) ([.normal [97]], 0) ∅

/-- A whole run, in which the second name is linked to the first one. -/
theorem run_linked : ∃ ls s, Run linkedRestorer.Step (linkedRestorer.start emptyFs) ls s ∧
    s.phase = .finished true ∧ s.errors = [] := by
  obtain ⟨packs, fs₁, hwrites, hdone, hok, habsent, i, hentry⟩ := flushes_primary
    (s := ⟨.streaming [linkedNode 98], emptyFs, [⟨wholeItem (linkedNode 97), false⟩],
      linkedPrimaries, [], []⟩) rfl rfl
  obtain ⟨packs', hnothing, hdone', hok'⟩ := flushes_secondary
    (s := ⟨.streaming [], fs₁, [⟨wholeItem (linkedNode 98), true⟩], linkedPrimaries,
      [([.normal [98]], [.normal [97]])], []⟩) rfl
  -- the first name is planned and its batch is flushed
  have hfirst : linkedRestorer.Step (linkedRestorer.start emptyFs) (.plan (linkedNode 97) none)
      ⟨.streaming [linkedNode 98], emptyFs, [⟨wholeItem (linkedNode 97), false⟩],
        linkedPrimaries, [], []⟩ :=
    .visit rfl rfl (.plan rfl (.absent rfl) (.inl rfl))
  have hflush : linkedRestorer.Step ⟨.streaming [linkedNode 98], emptyFs,
      [⟨wholeItem (linkedNode 97), false⟩], linkedPrimaries, [], []⟩ .other
      ⟨.streaming [linkedNode 98], fs₁, [], linkedPrimaries, [], []⟩ :=
    .flush rfl ⟨List.cons_ne_nil _ _, .inl rfl⟩ rfl hwrites hdone hok
  -- the second name is planned as a link to it
  have hsecond : linkedRestorer.Step ⟨.streaming [linkedNode 98], fs₁, [], linkedPrimaries, [], []⟩
      (.plan (linkedNode 98) none)
      ⟨.streaming [], fs₁, [⟨wholeItem (linkedNode 98), true⟩], linkedPrimaries,
        [([.normal [98]], [.normal [97]])], []⟩ :=
    .visit rfl rfl (.plan rfl (.absent habsent) (.inl rfl))
  have hflush' : linkedRestorer.Step ⟨.streaming [], fs₁, [⟨wholeItem (linkedNode 98), true⟩],
      linkedPrimaries, [([.normal [98]], [.normal [97]])], []⟩ .other
      ⟨.streaming [], fs₁, [], linkedPrimaries, [([.normal [98]], [.normal [97]])], []⟩ :=
    .flush rfl ⟨List.cons_ne_nil _ _, .inl rfl⟩ rfl hnothing hdone' hok'
  -- the link is made
  have hlinks : linkedRestorer.Step
      ⟨.streaming [], fs₁, [], linkedPrimaries, [([.normal [98]], [.normal [97]])], []⟩ .other
      ⟨.linking [([.normal [98]], [.normal [97]])], fs₁, [], linkedPrimaries,
        [([.normal [98]], [.normal [97]])], []⟩ := .startLinks rfl rfl
  have hlink : linkedRestorer.Step
      ⟨.linking [([.normal [98]], [.normal [97]])], fs₁, [], linkedPrimaries,
        [([.normal [98]], [.normal [97]])], []⟩ .other
      ⟨.linking [], fs₁.setEntry [.normal [98]] (fs₁.entry [.normal [97]]), [], linkedPrimaries,
        [([.normal [98]], [.normal [97]])], []⟩ := by
    refine .link rfl ?_ ?_ ?_
    · simp [habsent]
    · simp [hentry]
    · simp [hentry]
  have hmetadata : linkedRestorer.Step
      ⟨.linking [], fs₁.setEntry [.normal [98]] (fs₁.entry [.normal [97]]), [], linkedPrimaries,
        [([.normal [98]], [.normal [97]])], []⟩ .other
      ⟨.metadata linkedRestorer.nodes, fs₁.setEntry [.normal [98]] (fs₁.entry [.normal [97]]), [],
        linkedPrimaries, [([.normal [98]], [.normal [97]])], []⟩ := .startMetadata rfl
  exact ⟨_, _, (((((((Run.nil.snoc hfirst).snoc hflush).snoc hsecond).snoc hflush').snoc
    hlinks).snoc hlink).snoc hmetadata).snoc (.finish rfl), rfl, rfl⟩

/-- Both names have the bytes of the two blobs. -/
theorem linked_content : ∃ ls s, Run linkedRestorer.Step (linkedRestorer.start emptyFs) ls s ∧
    ∀ n ∈ linkedRestorer.nodes, n.node.nodeType = .file →
      ∃ i, s.fs.entry n.path = .file i ∧
        s.fs.bytes i = (n.node.blobs.getD []).flatMap samplePlain := by
  obtain ⟨ls, s, hrun, hend, herrors⟩ := run_linked
  exact ⟨ls, s, hrun, links_keep_content linked_fromEmpty hrun hend herrors⟩

end Restorer

end Mapache
