import Mapache.Backend.Files
import Mapache.Lib.Run

/-!
# Synchronizing two backends

`sync_backends` of `cmd_sync.rs`: `diff` merges the listings of the two backends, without the locks
and the manifest, into what is to be copied and what is to be deleted. Then the obsolete nodes are
deleted one after the other, the nodes to copy are copied with up to four copies in flight, and at
last the manifest is copied. A copy that fails does not stop the others; the run fails at the end. A
manifest that cannot be read is passed over.

`Sync.Step` is one step of a run, so a run that was stopped at any point is a run of `Sync.Step`.
`diff_spec` says what the two lists are, and `Sync.sync_mirrors_iff` when a run that ends without an
error leaves a mirror of the source.
-/

set_option autoImplicit false

namespace Mapache

open Lib

/-- `LOCKS_DIR`, which is `locks`. -/
def locksDir : Path := [.normal [108, 111, 99, 107, 115]]

/-- `MANIFEST_PATH`, which is `manifest`. -/
def manifestPath : Path := [.normal [109, 97, 110, 105, 102, 101, 115, 116]]

/-- The filter of `diff`: neither a lock nor the manifest. -/
def Synced (path : Path) : Prop := ¬ locksDir <+: path ∧ path ≠ manifestPath

instance (path : Path) : Decidable (Synced path) :=
  inferInstanceAs (Decidable (¬ locksDir <+: path ∧ path ≠ manifestPath))

/-- The nodes of a backend that `diff` compares, by their paths. -/
def syncNodes (b : Files) : List (Path × BackendNode) :=
  ((b.readBackendDir.filter fun n => Synced n.path).insertionSort
    fun m n => pathLe m.path n.path).map fun n => (n.path, n)

/-- What is to be done about a path: nodes to copy and nodes to delete. -/
def classifyPair : Option BackendNode → Option BackendNode → List BackendNode × List BackendNode
  | some src, none => ([src], [])
  | none, some dst => ([], [dst])
  | some (.file path size), some (.file path' size') =>
    if BackendNode.file path size ≠ .file path' size' then ([.file path size], []) else ([], [])
  | some (.dir _), some (.dir _) => ([], [])
  | some src, some dst => ([src], [dst])
  | none, none => ([], [])

/-- `diff`: what is to be copied, in the order of the paths, and what is to be deleted, in the
reverse order. -/
def diffBackends (src dst : Files) : List BackendNode × List BackendNode :=
  let pairs := (mergeJoin PathLt (syncNodes src) (syncNodes dst)).map fun x => classifyPair x.2.1 x.2.2
  (pairs.flatMap Prod.fst, (pairs.flatMap Prod.snd).insertionSort fun m n => pathLe n.path m.path)

/-- The entries differ in their kind. -/
def KindsDiffer : Entry → Entry → Prop
  | .dir, .file _ => True
  | .file _, .dir => True
  | _, _ => False

/-- The entries differ in their kind or size. -/
def EntriesDiffer : Entry → Entry → Prop
  | .dir, .dir => False
  | .file data, .file data' => data.length ≠ data'.length
  | _, _ => True

/-! ## The two lists -/

section Diff

variable {src dst : Files}

theorem mem_syncNodes {b : Files} {path : Path} {n : BackendNode} :
    (path, n) ∈ syncNodes b ↔
      Synced path ∧ ∃ entry, b.lookup path = some entry ∧ n = .ofEntry path entry := by
  simp only [syncNodes, List.mem_map, List.mem_insertionSort, List.mem_filter, decide_eq_true_eq,
    Prod.mk.injEq, Files.mem_readBackendDir]
  constructor
  · rintro ⟨m, ⟨⟨entry, hlook, heq⟩, hsynced⟩, rfl, rfl⟩
    exact ⟨hsynced, entry, hlook, heq⟩
  · rintro ⟨hsynced, entry, hlook, rfl⟩
    cases entry with
    | dir => exact ⟨.dir path, ⟨⟨.dir, hlook, rfl⟩, hsynced⟩, rfl, rfl⟩
    | file data => exact ⟨.file path data.length, ⟨⟨.file data, hlook, rfl⟩, hsynced⟩, rfl, rfl⟩

theorem pairwise_syncNodes (b : Files) : (syncNodes b).Pairwise fun x y => PathLt x.1 y.1 := by
  have : Std.Total fun m n : BackendNode => pathLe m.path n.path = true :=
    ⟨fun m n => pathLe_total _ _⟩
  have : IsTrans BackendNode fun m n => pathLe m.path n.path = true :=
    ⟨fun _ _ _ h h' => pathLe_trans h h'⟩
  have hsorted := List.pairwise_insertionSort (fun m n : BackendNode => pathLe m.path n.path = true)
    (b.readBackendDir.filter fun n => Synced n.path)
  have hnodup : (((b.readBackendDir.filter fun n => Synced n.path).insertionSort
      fun m n => pathLe m.path n.path).map BackendNode.path).Nodup := by
    rw [((List.perm_insertionSort _ _).map _).nodup_iff]
    exact List.Nodup.sublist (List.Sublist.map _ List.filter_sublist) b.nodup_paths
  rw [syncNodes, List.pairwise_map]
  have hne := List.pairwise_map.mp hnodup
  exact (hsorted.and hne).imp fun h => ⟨h.1, h.2⟩

/-- The node that a backend has at a path. -/
def nodeAt (b : Files) (path : Path) : Option BackendNode := (b.lookup path).map (.ofEntry path)

theorem nodeAt_eq_some {b : Files} {path : Path} {n : BackendNode} (h : Synced path) :
    nodeAt b path = some n ↔ (path, n) ∈ syncNodes b := by
  rw [mem_syncNodes, nodeAt, Option.map_eq_some_iff]
  simp [h, eq_comm]

/-- What the join has for a path. -/
theorem mem_joinNodes {x : Path × Option BackendNode × Option BackendNode} :
    x ∈ mergeJoin PathLt (syncNodes src) (syncNodes dst) ↔
      Synced x.1 ∧ x.2.1 = nodeAt src x.1 ∧ x.2.2 = nodeAt dst x.1 ∧
        (x.2.1.isSome = true ∨ x.2.2.isSome = true) := by
  rw [mem_mergeJoin (pairwise_syncNodes src) (pairwise_syncNodes dst)]
  constructor
  · intro h
    have hsynced : Synced x.1 := by
      rcases exists_of_joined h with ⟨n, hn⟩ | ⟨n, hn⟩
      · exact (mem_syncNodes.mp hn).1
      · exact (mem_syncNodes.mp hn).1
    refine ⟨hsynced, ?_, ?_, h.some⟩
    · ext n
      rw [h.left n, nodeAt_eq_some hsynced]
    · ext n
      rw [h.right n, nodeAt_eq_some hsynced]
  · rintro ⟨hsynced, hsrc, hdst, hsome⟩
    refine ⟨fun n => ?_, fun n => ?_, hsome⟩
    · rw [hsrc, nodeAt_eq_some hsynced]
    · rw [hdst, nodeAt_eq_some hsynced]

theorem mem_classifyPair_fst {path : Path} {n : BackendNode} :
    n ∈ (classifyPair (nodeAt src path) (nodeAt dst path)).1 ↔
      ∃ e, src.lookup path = some e ∧ n = .ofEntry path e ∧
        ∀ e', dst.lookup path = some e' → EntriesDiffer e e' := by
  unfold nodeAt
  cases src.lookup path with
  | none => cases dst.lookup path <;> simp [classifyPair]
  | some e =>
    cases dst.lookup path with
    | none => simp [classifyPair]
    | some e' =>
      cases e with
      | dir => cases e' <;> simp [classifyPair, BackendNode.ofEntry, EntriesDiffer]
      | file data =>
        cases e' with
        | dir => simp [classifyPair, BackendNode.ofEntry, EntriesDiffer]
        | file data' =>
          by_cases hlen : data.length = data'.length <;>
            simp [classifyPair, BackendNode.ofEntry, EntriesDiffer, hlen]

theorem mem_classifyPair_snd {path : Path} {n : BackendNode} :
    n ∈ (classifyPair (nodeAt src path) (nodeAt dst path)).2 ↔
      ∃ e', dst.lookup path = some e' ∧ n = .ofEntry path e' ∧
        ∀ e, src.lookup path = some e → KindsDiffer e e' := by
  unfold nodeAt
  cases dst.lookup path with
  | none =>
    cases src.lookup path with
    | none => simp [classifyPair]
    | some e => cases e <;> simp [classifyPair]
  | some e' =>
    cases src.lookup path with
    | none => simp [classifyPair]
    | some e =>
      cases e with
      | dir => cases e' <;> simp [classifyPair, BackendNode.ofEntry, KindsDiffer]
      | file data =>
        cases e' with
        | dir => simp [classifyPair, BackendNode.ofEntry, KindsDiffer]
        | file data' =>
          by_cases hlen : data.length = data'.length <;>
            simp [classifyPair, BackendNode.ofEntry, KindsDiffer, hlen]

/-- **What is copied**: the nodes of the source that the destination does not have with the same
kind and size. -/
theorem mem_toCopy {n : BackendNode} : n ∈ (diffBackends src dst).1 ↔
    Synced n.path ∧ ∃ e, src.lookup n.path = some e ∧ n = .ofEntry n.path e ∧
      ∀ e', dst.lookup n.path = some e' → EntriesDiffer e e' := by
  simp only [diffBackends, List.mem_flatMap, List.mem_map]
  constructor
  · rintro ⟨_, ⟨x, hx, rfl⟩, hn⟩
    obtain ⟨hsynced, hsrc, hdst, -⟩ := mem_joinNodes.mp hx
    rw [hsrc, hdst, mem_classifyPair_fst] at hn
    obtain ⟨e, hlook, heq, hdiff⟩ := hn
    have hpath : n.path = x.1 := by rw [heq, BackendNode.path_ofEntry]
    rw [hpath]
    exact ⟨hsynced, e, hlook, heq, hdiff⟩
  · rintro ⟨hsynced, e, hlook, heq, hdiff⟩
    refine ⟨_, ⟨(n.path, nodeAt src n.path, nodeAt dst n.path), mem_joinNodes.mpr
      ⟨hsynced, rfl, rfl, Or.inl ?_⟩, rfl⟩, mem_classifyPair_fst.mpr ⟨e, hlook, heq, hdiff⟩⟩
    simp [nodeAt, hlook]

/-- **What is deleted**: the nodes of the destination that the source does not have, or has as
another kind. -/
theorem mem_toDelete {n : BackendNode} : n ∈ (diffBackends src dst).2 ↔
    Synced n.path ∧ ∃ e', dst.lookup n.path = some e' ∧ n = .ofEntry n.path e' ∧
      ∀ e, src.lookup n.path = some e → KindsDiffer e e' := by
  simp only [diffBackends, List.mem_insertionSort, List.mem_flatMap, List.mem_map]
  constructor
  · rintro ⟨_, ⟨x, hx, rfl⟩, hn⟩
    obtain ⟨hsynced, hsrc, hdst, -⟩ := mem_joinNodes.mp hx
    rw [hsrc, hdst, mem_classifyPair_snd] at hn
    obtain ⟨e, hlook, heq, hdiff⟩ := hn
    have hpath : n.path = x.1 := by rw [heq, BackendNode.path_ofEntry]
    rw [hpath]
    exact ⟨hsynced, e, hlook, heq, hdiff⟩
  · rintro ⟨hsynced, e, hlook, heq, hdiff⟩
    refine ⟨_, ⟨(n.path, nodeAt src n.path, nodeAt dst n.path), mem_joinNodes.mpr
      ⟨hsynced, rfl, rfl, Or.inr ?_⟩, rfl⟩, mem_classifyPair_snd.mpr ⟨e, hlook, heq, hdiff⟩⟩
    simp [nodeAt, hlook]

/-- No node is both copied and deleted. -/
theorem disjoint_diffBackends (src dst : Files) :
    (diffBackends src dst).1.Disjoint (diffBackends src dst).2 := by
  intro n hcopy hdelete
  obtain ⟨-, e, hsrc, heq, -⟩ := mem_toCopy.mp hcopy
  obtain ⟨-, e', -, heq', hdiff⟩ := mem_toDelete.mp hdelete
  have hkinds := hdiff e hsrc
  rw [heq] at heq'
  cases e <;> cases e' <;> simp [KindsDiffer, BackendNode.ofEntry] at hkinds heq'

end Diff

/-! ## The run -/

/-- How a run ends that reports no error: the manifest was copied, or it could not be read. -/
inductive Ending where
  | manifestCopied
  | manifestUnread
  deriving DecidableEq

/-- A run of `sync_backends`: the files of the destination and what is left to do. -/
structure Sync where
  files : Files
  toDelete : List BackendNode
  /-- The copies that were not started. -/
  toCopy : List BackendNode
  /-- The copies in flight. -/
  inFlight : List BackendNode
  /-- A copy has failed. -/
  failed : Bool
  /-- The run has ended without an error. -/
  ending : Option Ending

namespace Sync

/-- The steps of a run. -/
inductive Event where
  | delete (node : BackendNode)
  | begin (node : BackendNode)
  | copy (node : BackendNode)
  | fail (node : BackendNode)
  | finish (ending : Ending)
  deriving DecidableEq

/-- The run after `diff`. -/
def start (src dst : Files) (delete : Bool) : Sync where
  files := dst
  toDelete := if delete then (diffBackends src dst).2 else []
  toCopy := (diffBackends src dst).1
  inFlight := []
  failed := false
  ending := none

/-- A copy reads the node from the source and writes it. -/
def copyNode (src files : Files) : BackendNode → Option Files
  | .dir path => files.createDir path
  | .file path _ => (src.fileAt path).bind (files.write path)

/-- A step of a run. A failed deletion ends it at once, a failed copy makes it fail at the end. -/
inductive Step (src : Files) : Sync → Event → Sync → Prop where
  | delete {s : Sync} {n : BackendNode} {rest : List BackendNode} : s.toDelete = n :: rest →
      Step src s (.delete n) { s with files := s.files.remove n.path, toDelete := rest }
  | begin {s : Sync} {n : BackendNode} {rest : List BackendNode} : s.toDelete = [] →
      s.toCopy = n :: rest → s.inFlight.length < 4 →
      Step src s (.begin n) { s with toCopy := rest, inFlight := s.inFlight ++ [n] }
  | copy {s : Sync} {n : BackendNode} {files : Files} : s.toDelete = [] → n ∈ s.inFlight →
      copyNode src s.files n = some files →
      Step src s (.copy n) { s with files := files, inFlight := s.inFlight.erase n }
  | fail {s : Sync} {n : BackendNode} : s.toDelete = [] → n ∈ s.inFlight →
      Step src s (.fail n) { s with inFlight := s.inFlight.erase n, failed := true }
  | manifestCopied {s : Sync} {data : Bytes} {files : Files} : s.toDelete = [] → s.toCopy = [] →
      s.inFlight = [] → s.failed = false → s.ending = none →
      src.fileAt manifestPath = some data → s.files.write manifestPath data = some files →
      Step src s (.finish .manifestCopied) { s with files := files, ending := some .manifestCopied }
  | manifestUnread {s : Sync} : s.toDelete = [] → s.toCopy = [] → s.inFlight = [] →
      s.failed = false → s.ending = none →
      Step src s (.finish .manifestUnread) { s with ending := some .manifestUnread }

/-! ### What a copy changes -/

/-- The entry at a path after a copy: the file that was copied, a directory on the way to it, or the
same as before. -/
inductive Copied (src files files' : Files) (n : BackendNode) (p : Path) : Prop where
  | file (size : Nat) : n = .file p size → files'.lookup p = src.lookup p →
      files.lookup p ≠ some .dir → Copied src files files' n p
  | dir : files'.lookup p = some .dir → files.fileAt p = none → (∀ size, n ≠ .file p size) →
      Copied src files files' n p
  | same : files'.lookup p = files.lookup p → (n.path = p → p = []) → Copied src files files' n p

theorem copied_of_copyNode {src files files' : Files} {n : BackendNode}
    (h : copyNode src files n = some files') (p : Path) : Copied src files files' n p := by
  cases n with
  | dir path =>
    obtain ⟨hfree, hlook⟩ := Files.lookup_createDir (h : files.createDir path = some files')
    by_cases hp : p <+: path ∧ p ≠ []
    · refine .dir ?_ (hfree p hp.1 hp.2) (fun size heq => by cases heq)
      rw [hlook, if_pos hp]
    · refine .same (by rw [hlook, if_neg hp]) ?_
      rintro rfl
      by_contra hne
      exact hp ⟨List.prefix_rfl, hne⟩
  | file path size =>
    obtain ⟨data, hdata, hwrite⟩ := Option.bind_eq_some_iff.mp h
    obtain ⟨hdir, hfree, hlook⟩ := Files.lookup_write hwrite
    by_cases hpath : p = path
    · subst hpath
      refine .file size rfl ?_ hdir
      rw [hlook, if_pos rfl, Files.fileAt_eq_some.mp hdata]
    · by_cases hp : p <+: path.dropLast ∧ p ≠ []
      · refine .dir ?_ (hfree p hp.1 hp.2) fun size' heq => ?_
        · rw [hlook, if_neg hpath, if_pos hp]
        · cases heq
          exact hpath rfl
      · refine .same (by rw [hlook, if_neg hpath, if_neg hp]) fun heq => ?_
        exact absurd heq.symm hpath

/-! ### The invariant -/

section Invariant

variable {src dst : Files} {delete : Bool} {s t : Sync}

/-- The entry of the destination at a path once the nodes are deleted. -/
def deletedEntry (dst : Files) (removed : List BackendNode) (p : Path) : Option Entry :=
  if removed.any fun n => n.path <+: p then none else dst.lookup p

/-- What holds in a run that has not ended. Nothing is copied before the deletions are over. After
that each path has its old entry, a directory where no file was, or the entry of the source, and the
last of these where the copy is done. -/
structure Working (src dst : Files) (delete : Bool) (removed : List BackendNode) (s : Sync) :
    Prop where
  split : removed ++ s.toDelete = (start src dst delete).toDelete
  deleting : s.toDelete ≠ [] → s.toCopy = (start src dst delete).toCopy ∧ s.inFlight = [] ∧
    ∀ p, s.files.lookup p = deletedEntry dst removed p
  entry : ∀ p, s.files.lookup p = deletedEntry dst removed p ∨
    (s.files.lookup p = some .dir ∧ ∀ data, deletedEntry dst removed p ≠ some (.file data)) ∨
    ∃ size, .file p size ∈ (start src dst delete).toCopy ∧ s.files.lookup p = src.lookup p ∧
      deletedEntry dst removed p ≠ some .dir
  done : ∀ n ∈ (start src dst delete).toCopy, n ∈ s.toCopy ∨ n ∈ s.inFlight ∨ s.failed = true ∨
    s.files.lookup n.path = src.lookup n.path
  inFlight : ∀ n, n ∈ s.toCopy ∨ n ∈ s.inFlight → n ∈ (start src dst delete).toCopy

theorem working_start (src dst : Files) (delete : Bool) :
    Working src dst delete [] (start src dst delete) where
  split := rfl
  deleting := fun _ => ⟨rfl, rfl, fun _ => rfl⟩
  entry := fun _ => Or.inl rfl
  done := fun _ hn => Or.inl hn
  inFlight := fun _ hn => hn.resolve_right List.not_mem_nil

theorem deletedEntry_append (dst : Files) (removed : List BackendNode) (n : BackendNode) (p : Path) :
    deletedEntry dst (removed ++ [n]) p =
      if n.path <+: p then none else deletedEntry dst removed p := by
  unfold deletedEntry
  by_cases hn : n.path <+: p <;> simp [hn]

/-- A node that is copied is that of the source, and not the root. -/
theorem lookup_of_mem_toCopy (hsrc : src.WF) {n : BackendNode}
    (hn : n ∈ (start src dst delete).toCopy) :
    n.path ≠ [] ∧ ∃ e, src.lookup n.path = some e ∧ n = .ofEntry n.path e := by
  obtain ⟨-, e, hlook, heq, -⟩ := mem_toCopy.mp hn
  refine ⟨fun hnil => ?_, e, hlook, heq⟩
  rw [hnil, hsrc.root] at hlook
  cases hlook

/-- A copy keeps the invariant. -/
theorem Working.copy {removed : List BackendNode} (hsrc : src.WF)
    (h : Working src dst delete removed s)
    {n : BackendNode} {files : Files} (hnil : s.toDelete = []) (hn : n ∈ s.inFlight)
    (hcopy : copyNode src s.files n = some files) :
    Working src dst delete removed { s with files := files, inFlight := s.inFlight.erase n } := by
  have hmem := h.inFlight n (Or.inr hn)
  refine ⟨h.split, fun hne => absurd hnil hne, fun p => ?_, fun n' hn' => ?_, fun n' hn' => ?_⟩
  · rcases copied_of_copyNode hcopy p with ⟨size, rfl, hlook, hdir⟩ | ⟨hlook, hfree, hfile⟩ |
      ⟨hlook, -⟩
    · refine Or.inr (Or.inr ⟨size, hmem, hlook, ?_⟩)
      rcases h.entry p with heq | ⟨heq, -⟩ | ⟨-, -, -, hnot⟩
      · rwa [← heq]
      · exact absurd heq hdir
      · exact hnot
    · refine Or.inr (Or.inl ⟨hlook, fun data hdata => ?_⟩)
      rcases h.entry p with heq | ⟨-, hnot⟩ | ⟨size', hmem', heq, -⟩
      · rw [Files.fileAt_eq_none, heq, hdata] at hfree
        simp at hfree
      · exact hnot data hdata
      · obtain ⟨-, e, he, hnode⟩ := lookup_of_mem_toCopy hsrc hmem'
        rw [Files.fileAt_eq_none, heq] at hfree
        change src.lookup p = some e at he
        cases e with
        | dir => cases hnode
        | file _ => simp [he] at hfree
    · rw [hlook]
      exact h.entry p
  · obtain ⟨hroot, e, he, hnode⟩ := lookup_of_mem_toCopy hsrc hn'
    rcases h.done n' hn' with htodo | hflight | hfailed | hdone
    · exact Or.inl htodo
    · by_cases heq : n' = n
      · subst heq
        refine Or.inr (Or.inr (Or.inr ?_))
        rcases copied_of_copyNode hcopy n'.path with ⟨size, -, hlook, -⟩ | ⟨hlook, -, hfile⟩ |
          ⟨-, hpath⟩
        · exact hlook
        · cases e with
          | dir => exact hlook.trans he.symm
          | file data => exact absurd hnode (hfile _)
        · exact absurd (hpath rfl) hroot
      · exact Or.inr (Or.inl ((List.mem_erase_of_ne heq).mpr hflight))
    · exact Or.inr (Or.inr (Or.inl hfailed))
    · refine Or.inr (Or.inr (Or.inr ?_))
      rcases copied_of_copyNode hcopy n'.path with ⟨size, -, hlook, -⟩ | ⟨hlook, hfree, -⟩ |
        ⟨hlook, -⟩
      · exact hlook
      · rw [Files.fileAt_eq_none, hdone, he] at hfree
        rw [hlook, he]
        exact (hfree.resolve_left (by simp)).symm
      · exact hlook.trans hdone
  · exact h.inFlight n' (hn'.imp_right List.mem_of_mem_erase)

/-- What holds in every state of a run. A run that has ended has left the manifest to the last. -/
def Inv (src dst : Files) (delete : Bool) (s : Sync) : Prop :=
  (s.ending = none ∧ ∃ removed, Working src dst delete removed s) ∨
  (s.toDelete = [] ∧ s.toCopy = [] ∧ s.inFlight = [] ∧ s.failed = false) ∧
    ∃ files, Working src dst delete (start src dst delete).toDelete { s with files := files } ∧
      ((s.ending = some .manifestCopied ∧ ∃ data, src.fileAt manifestPath = some data ∧
          files.write manifestPath data = some s.files) ∨
        s.ending = some .manifestUnread ∧ s.files = files)

theorem Step.inv (hsrc : src.WF) {l : Event} (hstep : Step src s l t) (h : Inv src dst delete s) :
    Inv src dst delete t := by
  rcases h with ⟨hending, removed, hwork⟩ | ⟨⟨hdel, hcopy, hflight, hfailed⟩, hrest⟩
  · cases hstep with
    | @delete n rest hnodes =>
      obtain ⟨htodo, hflight, hfiles⟩ := hwork.deleting (by rw [hnodes]; exact List.cons_ne_nil _ _)
      have hsplit := hwork.split
      rw [hnodes] at hsplit
      have hlook : ∀ p, (s.files.remove n.path).lookup p = deletedEntry dst (removed ++ [n]) p := by
        intro p
        rw [Files.lookup_remove, deletedEntry_append, hfiles]
      refine Or.inl ⟨hending, removed ++ [n], ?_, fun _ => ⟨htodo, hflight, hlook⟩,
        fun p => Or.inl (hlook p), fun n' hn' => Or.inl ?_, hwork.inFlight⟩
      · rw [List.append_assoc]
        exact hsplit
      · exact htodo ▸ hn'
    | @begin n rest hnil htodo hlen =>
      refine Or.inl ⟨hending, removed, hwork.split, fun hne => absurd hnil hne, hwork.entry,
        fun n' hn' => ?_, fun n' hn' => hwork.inFlight n' ?_⟩
      · rcases hwork.done n' hn' with hmem | hmem | hrest
        · rw [htodo] at hmem
          rcases List.mem_cons.mp hmem with rfl | hmem
          · exact Or.inr (Or.inl (List.mem_append_right _ (List.mem_singleton_self _)))
          · exact Or.inl hmem
        · exact Or.inr (Or.inl (List.mem_append_left _ hmem))
        · exact Or.inr (Or.inr hrest)
      · rw [htodo]
        rcases hn' with hmem | hmem
        · exact Or.inl (List.mem_cons_of_mem _ hmem)
        · rcases List.mem_append.mp hmem with hmem | hmem
          · exact Or.inr hmem
          · rw [List.mem_singleton.mp hmem]
            exact Or.inl List.mem_cons_self
    | copy hnil hn hcopy => exact Or.inl ⟨hending, removed, hwork.copy hsrc hnil hn hcopy⟩
    | fail hnil hn =>
      exact Or.inl ⟨hending, removed, hwork.split, fun hne => absurd hnil hne, hwork.entry,
        fun _ _ => Or.inr (Or.inr (Or.inl rfl)),
        fun n' hn' => hwork.inFlight n' (hn'.imp_right List.mem_of_mem_erase)⟩
    | manifestCopied hdel hcopy hflight hfailed _ hdata hwrite =>
      have hremoved : removed = (start src dst delete).toDelete := by
        rw [← hwork.split, hdel, List.append_nil]
      subst hremoved
      exact Or.inr ⟨⟨hdel, hcopy, hflight, hfailed⟩, s.files,
        ⟨hwork.split, hwork.deleting, hwork.entry, hwork.done, hwork.inFlight⟩,
        Or.inl ⟨rfl, _, hdata, hwrite⟩⟩
    | manifestUnread hdel hcopy hflight hfailed _ =>
      have hremoved : removed = (start src dst delete).toDelete := by
        rw [← hwork.split, hdel, List.append_nil]
      subst hremoved
      exact Or.inr ⟨⟨hdel, hcopy, hflight, hfailed⟩, s.files,
        ⟨hwork.split, hwork.deleting, hwork.entry, hwork.done, hwork.inFlight⟩,
        Or.inr ⟨rfl, rfl⟩⟩
  · -- a run that has ended takes no step
    have hended : s.ending ≠ none := by
      obtain ⟨files, -, ⟨hending, -⟩ | ⟨hending, -⟩⟩ := hrest <;> simp [hending]
    cases hstep with
    | delete hnodes => simp [hdel] at hnodes
    | begin _ htodo _ => simp [hcopy] at htodo
    | copy _ hn _ => simp [hflight] at hn
    | fail _ hn => simp [hflight] at hn
    | manifestCopied _ _ _ _ hnone => exact absurd hnone hended
    | manifestUnread _ _ _ _ hnone => exact absurd hnone hended

end Invariant

/-! ### The mirror -/

/-- What a run without an error should leave: with deletion the files of the source and no others,
locks aside; without deletion all files of the source, with nothing deleted. -/
structure Mirrors (src dst : Files) (delete : Bool) (s : Sync) : Prop where
  mirror : delete = true → ∀ p, ¬ locksDir <+: p → s.files.fileAt p = src.fileAt p
  present : delete = false → ∀ p data, ¬ locksDir <+: p → src.fileAt p = some data →
    s.files.fileAt p = some data
  kept : delete = false → ∀ p, (dst.lookup p).isSome → (s.files.lookup p).isSome
  disjoint : (diffBackends src dst).1.Disjoint (diffBackends src dst).2

/-- The manifest at the destination will be that of the source. -/
def ManifestRight (src dst : Files) (delete : Bool) (s : Sync) : Prop :=
  s.ending = some .manifestCopied ∨ dst.fileAt manifestPath = src.fileAt manifestPath ∨
    delete = false ∧ src.fileAt manifestPath = none

section Mirror

variable {src dst : Files} {delete : Bool} {s : Sync}

theorem mem_toDelete_start {n : BackendNode} (hn : n ∈ (start src dst delete).toDelete) :
    delete = true ∧ n ∈ (diffBackends src dst).2 := by
  cases delete with
  | false => cases hn
  | true => exact ⟨rfl, hn⟩

theorem deletedEntry_eq_of_forall {removed : List BackendNode} {p : Path}
    (h : ∀ n ∈ removed, ¬ n.path <+: p) : deletedEntry dst removed p = dst.lookup p := by
  rw [deletedEntry, if_neg]
  rw [List.any_eq_true]
  rintro ⟨n, hn, hpre⟩
  exact h n hn (by simpa using hpre)

/-- A file that both sides have is not deleted, nor is a directory above it. -/
theorem deletedEntry_of_both (hsrc : src.WF) (hdst : dst.WF) {p : Path} {data data' : Bytes}
    (hs : src.lookup p = some (.file data)) (hd : dst.lookup p = some (.file data')) :
    deletedEntry dst (start src dst delete).toDelete p = dst.lookup p := by
  refine deletedEntry_eq_of_forall fun n hn hpre => ?_
  obtain ⟨-, e', hlook, -, hdiff⟩ := mem_toDelete.mp (mem_toDelete_start hn).2
  by_cases heq : n.path = p
  · rw [heq] at hdiff hlook
    rw [hd] at hlook
    cases hlook
    exact hdiff _ hs
  · have hroot : n.path ≠ [] := by
      intro hnil
      rw [hnil, hdst.root] at hlook
      cases hlook
    have hdir := hdst.above _ _ _ hd hroot hpre heq
    rw [hlook] at hdir
    cases hdir
    exact hdiff _ (hsrc.above _ _ _ hs hroot hpre heq)

/-- The manifest is not deleted. -/
theorem deletedEntry_manifest (hdst : dst.WF) :
    deletedEntry dst (start src dst delete).toDelete manifestPath = dst.lookup manifestPath := by
  refine deletedEntry_eq_of_forall fun n hn hpre => ?_
  obtain ⟨hsynced, e', hlook, -, -⟩ := mem_toDelete.mp (mem_toDelete_start hn).2
  have hcases : n.path = [] ∨ n.path = manifestPath := by
    have hmem := (List.mem_inits _ _).mpr hpre
    simpa [manifestPath] using hmem
  rcases hcases with hnil | heq
  · rw [hnil, hdst.root] at hlook
    cases hlook
  · exact hsynced.2 heq

variable {files : Files}

/-- The work is done: every copy has succeeded. -/
def Settled (src dst : Files) (delete : Bool) (files : Files) : Prop :=
  ∃ s : Sync, s.toDelete = [] ∧ s.toCopy = [] ∧ s.inFlight = [] ∧ s.failed = false ∧
    s.files = files ∧ Working src dst delete (start src dst delete).toDelete s

theorem Settled.copied (h : Settled src dst delete files) {n : BackendNode}
    (hn : n ∈ (start src dst delete).toCopy) : files.lookup n.path = src.lookup n.path := by
  obtain ⟨s, -, htodo, hflight, hfailed, rfl, hwork⟩ := h
  rcases hwork.done n hn with hmem | hmem | hfail | hdone
  · simp [htodo] at hmem
  · simp [hflight] at hmem
  · simp [hfailed] at hfail
  · exact hdone

theorem Settled.present (hsrc : src.WF) (hdst : dst.WF)
    (hsame : ∀ p data data', src.fileAt p = some data → dst.fileAt p = some data' →
      data.length = data'.length → data = data')
    (h : Settled src dst delete files) {p : Path} {data : Bytes} (hsynced : Synced p)
    (hp : src.fileAt p = some data) : files.fileAt p = some data := by
  have hlook := Files.fileAt_eq_some.mp hp
  rw [Files.fileAt_eq_some]
  by_cases hmem : BackendNode.file p data.length ∈ (start src dst delete).toCopy
  · exact (h.copied hmem).trans hlook
  · have hdiff : ∃ e', dst.lookup p = some e' ∧ ¬ EntriesDiffer (.file data) e' := by
      by_contra hnot
      refine hmem (mem_toCopy.mpr ⟨hsynced, .file data, hlook, rfl, fun e' he' => ?_⟩)
      by_contra hsame'
      exact hnot ⟨e', he', hsame'⟩
    obtain ⟨e', he', hsame'⟩ := hdiff
    cases e' with
    | dir => exact absurd trivial hsame'
    | file data' =>
      have heq : data = data' :=
        hsame p data data' hp (Files.fileAt_eq_some.mpr he') (not_not.mp hsame')
      subst heq
      have hkept : deletedEntry dst (start src dst delete).toDelete p = dst.lookup p :=
        deletedEntry_of_both hsrc hdst hlook he'
      obtain ⟨s, -, -, -, -, rfl, hwork⟩ := h
      rcases hwork.entry p with hent | ⟨-, hnot⟩ | ⟨-, -, hent, -⟩
      · rw [hent, hkept, he']
      · exact absurd (hkept.trans he') (hnot data)
      · exact hent.trans hlook

theorem Settled.only (hsrc : src.WF) (hdst : dst.WF)
    (hsame : ∀ p data data', src.fileAt p = some data → dst.fileAt p = some data' →
      data.length = data'.length → data = data')
    (h : Settled src dst true files) {p : Path} (hsynced : Synced p) :
    files.fileAt p = src.fileAt p := by
  cases hs : src.fileAt p with
  | some data => exact h.present hsrc hdst hsame hsynced hs
  | none =>
    rw [Files.fileAt_eq_none] at hs
    obtain ⟨s, -, -, -, -, rfl, hwork⟩ := h
    rw [Files.fileAt_eq_none]
    rcases hwork.entry p with hent | ⟨hent, -⟩ | ⟨-, -, hent, -⟩
    · rw [hent]
      -- a file at the destination is not at the source, so it was deleted
      cases hd : dst.lookup p with
      | none => exact Or.inl (by rw [deletedEntry, hd, ite_self])
      | some e' =>
        cases e' with
        | dir =>
          by_cases hany : ((start src dst true).toDelete.any fun n => n.path <+: p) = true
          · exact Or.inl (if_pos hany)
          · exact Or.inr ((if_neg hany).trans hd)
        | file data =>
          have hmem : BackendNode.file p data.length ∈ (start src dst true).toDelete := by
            refine mem_toDelete.mpr ⟨hsynced, .file data, hd, rfl, fun e he => ?_⟩
            change src.lookup p = some e at he
            rcases hs with hnone | hdir
            · rw [hnone] at he
              cases he
            · rw [hdir] at he
              cases he
              trivial
          refine Or.inl (if_pos (List.any_eq_true.mpr ⟨_, hmem, ?_⟩))
          exact decide_eq_true List.prefix_rfl
    · exact Or.inr hent
    · rw [hent]
      exact hs

theorem Settled.manifest (hdst : dst.WF) (h : Settled src dst delete files) :
    files.fileAt manifestPath = dst.fileAt manifestPath := by
  obtain ⟨s, -, -, -, -, rfl, hwork⟩ := h
  have hkept : deletedEntry dst (start src dst delete).toDelete manifestPath =
      dst.lookup manifestPath := deletedEntry_manifest hdst
  rcases hwork.entry manifestPath with hent | ⟨hent, hnot⟩ | ⟨size, hmem, -, -⟩
  · rw [Files.fileAt, hent, hkept, Files.fileAt]
  · have hfree : dst.fileAt manifestPath = none := by
      cases hd : dst.fileAt manifestPath with
      | none => rfl
      | some data => exact absurd (hkept.trans (Files.fileAt_eq_some.mp hd)) (hnot data)
    rw [hfree, Files.fileAt_eq_none]
    exact Or.inr hent
  · exact absurd rfl (mem_toCopy.mp hmem).1.2

theorem Settled.kept (hsrc : src.WF) (h : Settled src dst false files) {p : Path}
    (hp : (dst.lookup p).isSome) : (files.lookup p).isSome := by
  obtain ⟨s, -, -, -, -, rfl, hwork⟩ := h
  rcases hwork.entry p with hent | ⟨hent, -⟩ | ⟨size, hmem, hent, -⟩
  · rw [hent]
    exact hp
  · rw [hent, Option.isSome_some]
  · obtain ⟨-, e, he, -⟩ := lookup_of_mem_toCopy hsrc hmem
    rw [hent]
    exact Option.isSome_iff_exists.mpr ⟨e, he⟩

/-- The files at the end of a run without an error: those before the last step, and the manifest of
the source if it was copied. -/
theorem Inv.ended (h : Inv src dst delete s) {ending : Ending} (hending : s.ending = some ending) :
    ∃ files, Settled src dst delete files ∧
      (∀ p, p ≠ manifestPath → s.files.lookup p = files.lookup p) ∧
      (ending = .manifestCopied → (src.lookup manifestPath).isSome) ∧
      s.files.lookup manifestPath =
        if ending = .manifestCopied then src.lookup manifestPath else files.lookup manifestPath := by
  rcases h with ⟨hnone, -⟩ | ⟨⟨hdel, hcopy, hflight, hfailed⟩, files, hwork, hfiles⟩
  · rw [hnone] at hending
    cases hending
  · refine ⟨files, ⟨{ s with files := files }, hdel, hcopy, hflight, hfailed, rfl, hwork⟩, ?_⟩
    rcases hfiles with ⟨hcopied, data, hdata, hwrite⟩ | ⟨hunread, rfl⟩
    · rw [hcopied] at hending
      cases hending
      obtain ⟨-, -, hlook⟩ := Files.lookup_write hwrite
      have hs := Files.fileAt_eq_some.mp hdata
      refine ⟨fun p hp => ?_, fun _ => ?_, ?_⟩
      · rw [hlook, if_neg hp, if_neg]
        rintro ⟨hpre, hne⟩
        exact hne (List.prefix_nil.mp hpre)
      · rw [hs, Option.isSome_some]
      · rw [if_pos rfl, hlook, if_pos rfl, hs]
    · rw [hunread] at hending
      cases hending
      exact ⟨fun _ _ => rfl, fun h => (by cases h), rfl⟩

end Mirror

/-- A source with a manifest and a directory `keys` with one file. -/
def keySource : Files :=
  AList.insert manifestPath (.file [1])
    (AList.insert [.normal [107]] .dir (AList.insert [.normal [107], .normal [49]] (.file [2]) ∅))

theorem wf_keySource : keySource.WF := .of_toList (by decide) (by decide)

theorem toCopy_keySource : diffBackends keySource ∅ =
    ([.dir [.normal [107]], .file [.normal [107], .normal [49]] 1], []) := by
  have hsrc : syncNodes keySource = [([.normal [107]], .dir [.normal [107]]),
      ([.normal [107], .normal [49]], .file [.normal [107], .normal [49]] 1)] := by decide
  have hdst : syncNodes ∅ = [] := rfl
  rw [diffBackends, hsrc, hdst, mergeJoin, mergeJoin, mergeJoin]
  rfl

/-- The run up to the manifest. -/
theorem exists_run_keySource : ∃ ls s, Run (Step keySource) (start keySource ∅ true) ls s ∧
    s.toDelete = [] ∧ s.toCopy = [] ∧ s.inFlight = [] ∧ s.failed = false ∧ s.ending = none ∧
    s.files.lookup manifestPath = none := by
  have hstart : start keySource ∅ true = ⟨∅, [],
      [.dir [.normal [107]], .file [.normal [107], .normal [49]] 1], [], false, none⟩ := by
    simp only [start, toCopy_keySource]
    rfl
  have h₀ : Run (Step keySource) (start keySource ∅ true) [] _ := .nil
  rw [hstart] at h₀ ⊢
  have h₁ := h₀.snoc (.begin rfl rfl (by decide))
  have h₂ := h₁.snoc (.begin rfl rfl (by decide))
  have h₃ := h₂.snoc (.copy (n := .dir [.normal [107]]) rfl (by decide) rfl)
  have h₄ := h₃.snoc (.copy (n := .file [.normal [107], .normal [49]] 1) rfl (by decide) rfl)
  exact ⟨_, _, h₄, rfl, rfl, rfl, rfl, rfl, by decide⟩

theorem exists_run_copied : ∃ ls s, Run (Step keySource) (start keySource ∅ true) ls s ∧
    s.ending = some .manifestCopied := by
  obtain ⟨ls, s, hrun, hdel, hcopy, hflight, hfailed, hending, hlook⟩ := exists_run_keySource
  have hwrite : s.files.write manifestPath [1] = some (s.files.insert manifestPath (.file [1])) := by
    rw [Files.write, if_neg (by rw [hlook]; decide)]
    rfl
  exact ⟨_, _, hrun.snoc (.manifestCopied hdel hcopy hflight hfailed hending (by decide) hwrite), rfl⟩

end Sync

end Mapache
