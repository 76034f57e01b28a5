import Mapache.Commands.Sync
import Mapache.Repository.IndexFile
import Mapache.Repository.Layout

/-!
# An interrupted synchronization

What a synchronization leaves when it stops at some point, as a repository: its index files have to
list packs that exist, and its snapshots need all their blobs (`RepoReader.Usable`). The two lists
of the run are in the order of the paths, with `index` before `objects` before `snapshots`: an index
file is copied before the packs that it lists, and a pack is deleted before the index files that
list it. A copy that takes long, or fails, leaves its file out while later ones arrive.

So every run can be stopped at any point if and only if nothing that is copied or left needs anything
that is copied or deleted (`usable_iff_independent`): the packs that index files list, and the index
files that list the blobs of snapshots, are on the destination already and stay there.
-/

set_option autoImplicit false

namespace Mapache

open Lib

/-! ## Runs -/

namespace Files

/-- Files of one path are the same on both sides: their names are hashes of their contents. -/
def Agree (src dst : Files) : Prop :=
  ∀ p e e', Synced p → src.lookup p = some e → dst.lookup p = some e' → e = e'

/-- The files of the destination that are not deleted. -/
def kept (src dst : Files) (delete : Bool) (p : Path) : Option Bytes :=
  if delete = true ∧ src.fileAt p = none then none else dst.fileAt p

theorem exists_write {b : Files} {path : Path} (data : Bytes) (hdir : b.lookup path ≠ some .dir)
    (habove : ∀ p, p <+: path.dropLast → p ≠ [] → b.fileAt p = none) :
    ∃ b', b.write path data = some b' := by
  have hall : ((dirsOf path.dropLast).all fun p => (b.fileAt p).isNone) = true := by
    refine List.all_eq_true.mpr fun p hp => ?_
    obtain ⟨hpre, hne⟩ := mem_dirsOf.mp hp
    rw [habove p hpre hne]
    rfl
  rw [write, if_neg hdir, createDir, if_pos hall]
  exact ⟨_, rfl⟩

end Files

namespace Sync

section Runs

variable {src dst : Files} {delete : Bool} {s : Sync}

/-- A run deletes any number of nodes. -/
theorem exists_run_deletes {removed rest : List BackendNode}
    (h : (start src dst delete).toDelete = removed ++ rest) :
    ∃ ls s, Run (Step src) (start src dst delete) ls s ∧ s.toDelete = rest ∧
      s.toCopy = (start src dst delete).toCopy ∧ s.inFlight = [] ∧
      ∀ p, s.files.lookup p = deletedEntry dst removed p := by
  induction removed using List.reverseRecOn generalizing rest with
  | nil => exact ⟨[], _, .nil, h, rfl, rfl, fun _ => rfl⟩
  | append_singleton removed n ih =>
    rw [List.append_assoc] at h
    obtain ⟨ls, s, hrun, hdelete, hcopy, hflight, hfiles⟩ := ih h
    refine ⟨_, _, hrun.snoc (.delete hdelete), rfl, hcopy, hflight, fun p => ?_⟩
    rw [deletedEntry_append, Files.lookup_remove, hfiles]

/-- Copies that fail are passed over. -/
theorem exists_run_fails {failing rest : List BackendNode} (hdelete : s.toDelete = [])
    (hflight : s.inFlight = []) (hcopy : s.toCopy = failing ++ rest) :
    ∃ ls s', Run (Step src) s ls s' ∧ s'.toDelete = [] ∧ s'.toCopy = rest ∧ s'.inFlight = [] ∧
      s'.files = s.files := by
  induction failing generalizing s with
  | nil => exact ⟨[], s, .nil, hdelete, hcopy, hflight, rfl⟩
  | cons n failing ih =>
    have hlen : s.inFlight.length < 4 := by
      rw [hflight]
      decide
    obtain ⟨t, hrun, hfiles, hdelete', hcopy', hflight'⟩ : ∃ t, Run (Step src) s [.begin n, .fail n] t ∧
        t.files = s.files ∧ t.toDelete = [] ∧ t.toCopy = failing ++ rest ∧ t.inFlight = [] := by
      refine ⟨_, (Run.nil.snoc (Step.begin hdelete hcopy hlen)).snoc
        (Step.fail hdelete (List.mem_append_right _ (List.mem_singleton_self n))), rfl, hdelete, rfl, ?_⟩
      change (s.inFlight ++ [n]).erase n = []
      rw [hflight, List.nil_append, List.erase_cons_head]
    obtain ⟨ls, s', hrest, hdone⟩ := ih hdelete' hflight' hcopy'
    rw [hfiles] at hdone
    exact ⟨_, s', hrun.trans hrest, hdone⟩

/-- A run has copied one file and nothing else. -/
theorem exists_run_copy {n : BackendNode} (hn : n ∈ (start src dst delete).toCopy)
    (hcopies : ∀ files : Files,
      (∀ p, files.lookup p = deletedEntry dst (start src dst delete).toDelete p) →
      ∃ files', copyNode src files n = some files') :
    ∃ ls s files, Run (Step src) (start src dst delete) ls s ∧
      (∀ p, files.lookup p = deletedEntry dst (start src dst delete).toDelete p) ∧
      copyNode src files n = some s.files := by
  have hall : (start src dst delete).toDelete = (start src dst delete).toDelete ++ [] :=
    (List.append_nil _).symm
  obtain ⟨ls, s, hrun, hdelete, hcopy, hflight, hfiles⟩ := exists_run_deletes hall
  obtain ⟨failing, rest, hsplit⟩ := List.append_of_mem hn
  obtain ⟨ls', s', hrun', hdelete', hcopy', hflight', hfiles'⟩ : ∃ ls' s', Run (Step src) s ls' s' ∧
    s'.toDelete = [] ∧ s'.toCopy = n :: rest ∧ s'.inFlight = [] ∧ s'.files = s.files :=
    exists_run_fails hdelete hflight (hcopy.trans hsplit)
  have hlen : s'.inFlight.length < 4 := by
    rw [hflight']
    decide
  obtain ⟨files, hfile⟩ := hcopies s'.files fun p => by rw [hfiles', hfiles]
  have hbegun := (hrun.trans hrun').snoc (Step.begin hdelete' hcopy' hlen)
  have hmem : n ∈ s'.inFlight ++ [n] := List.mem_append_right _ (List.mem_singleton_self n)
  exact ⟨_, _, s'.files, hbegun.snoc (Step.copy hdelete' hmem hfile),
    fun p => by rw [hfiles', hfiles], hfile⟩

end Runs

end Sync

/-! ## Repositories -/

section Paths

variable {fileType : ContentIdType} {id : ID} {p : Path}

theorem head?_getPath (fileType : ContentIdType) (id : ID) :
    (getPath fileType id).head? = (topDir fileType).head? := by
  cases fileType <;> rfl

theorem synced_getPath (h : fileType ≠ .lock) (id : ID) : Synced (getPath fileType id) := by
  have hhead := head?_getPath fileType id
  constructor
  · rintro ⟨rest, hrest⟩
    rw [← hrest, locksDir, List.singleton_append, List.head?_cons] at hhead
    cases fileType with
    | lock => exact h rfl
    | pack | snapshot | index | key => exact absurd hhead (by decide)
  · intro heq
    rw [heq] at hhead
    cases fileType <;> exact absurd hhead (by decide)

/-- The directory of a file that is no pack is a single one. -/
theorem eq_topDir (ht : fileType ≠ .pack) (hp : p <+: (getPath fileType id).dropLast) (hne : p ≠ []) :
    p = topDir fileType := by
  rw [getPath_eq, List.dropLast_concat] at hp
  obtain ⟨c, hdir⟩ : ∃ c, fileDir fileType id = [c] ∧ topDir fileType = [c] := by
    cases fileType with
    | pack => exact absurd rfl ht
    | snapshot | index | key | lock => exact ⟨_, rfl, rfl⟩
  rw [hdir.1] at hp
  rw [hdir.2]
  obtain ⟨a, rest, rfl⟩ := List.exists_cons_of_ne_nil hne
  obtain ⟨rfl, hrest⟩ := List.cons_prefix_cons.mp hp
  rw [List.prefix_nil.mp hrest]

/-- What is at or above an index file comes before packs and snapshots. -/
theorem not_pathLe_index {id' : ID} (ht : fileType = .pack ∨ fileType = .snapshot)
    (hp : p <+: getPath .index id) (hne : p ≠ []) : pathLe (getPath fileType id') p = false := by
  obtain ⟨c, rest, rfl⟩ := List.exists_cons_of_ne_nil hne
  have hc : some c = (topDir .index).head? := by
    obtain ⟨t, ht⟩ := hp
    rw [← head?_getPath .index id, ← ht]
    rfl
  obtain ⟨c', rest', hpath⟩ : ∃ c' rest', getPath fileType id' = c' :: rest' :=
    List.exists_cons_of_ne_nil fun hnil => by
      have hhead := head?_getPath fileType id'
      rw [hnil] at hhead
      cases fileType <;> cases hhead
  have hc' := head?_getPath fileType id'
  rw [hpath] at hc' ⊢
  rw [List.head?_cons] at hc'
  rw [pathLe]
  rcases ht with rfl | rfl <;> cases hc <;> cases hc' <;> rfl

end Paths

/-- How an index file and a snapshot are read. -/
structure RepoReader where
  readIndex : Bytes → Option IndexFile
  readSnapshot : Bytes → Option Snapshot

namespace RepoReader

variable (R : RepoReader) (codec : TreeCodec) (plain : ID → Bytes)

/-- An index file lists the entry. The files are given by their contents. -/
def Lists (view : Path → Option Bytes) (e : ID × BlobLocator) : Prop :=
  ∃ id data f, view (getPath .index id) = some data ∧ R.readIndex data = some f ∧ e ∈ f.entries

/-- A snapshot file has the snapshot. -/
def HasSnapshot (view : Path → Option Bytes) (snap : Snapshot) : Prop :=
  ∃ id data, view (getPath .snapshot id) = some data ∧ R.readSnapshot data = some snap

/-- Every index entry points to an existing pack, and every snapshot has all its reachable blobs in
the index, and thereby in existing packs. -/
structure Usable (view : Path → Option Bytes) : Prop where
  packs : ∀ e, R.Lists view e → (view (getPath .pack e.2.packId)).isSome
  blobs : ∀ snap id, R.HasSnapshot view snap → Closure codec plain snap.tree id →
    ∃ l, R.Lists view (id, l)

/-- Nothing that is copied or left needs anything that is copied or deleted: the packs that an index
file of either side lists are kept, and so are index files that list the blobs of the snapshots of
the source. -/
structure Independent (src dst : Files) (delete : Bool) : Prop where
  packs : ∀ e, R.Lists src.fileAt e ∨ R.Lists dst.fileAt e →
    (src.kept dst delete (getPath .pack e.2.packId)).isSome
  blobs : ∀ snap id, R.HasSnapshot src.fileAt snap → Closure codec plain snap.tree id →
    ∃ l, R.Lists (src.kept dst delete) (id, l)

section

variable {R codec plain} {view view' : Path → Option Bytes} {src dst : Files} {delete : Bool}
  {s : Sync} {p : Path} {data : Bytes}

theorem Lists.mono {e : ID × BlobLocator} (h : R.Lists view e)
    (hview : ∀ id data, view (getPath .index id) = some data → view' (getPath .index id) = some data) :
    R.Lists view' e := by
  obtain ⟨id, data, f, hdata, hrest⟩ := h
  exact ⟨id, data, f, hview id data hdata, hrest⟩

theorem Usable.congr (h : R.Usable codec plain view)
    (hview : ∀ fileType id, view' (getPath fileType id) = view (getPath fileType id)) :
    R.Usable codec plain view' where
  packs e he := by
    rw [hview]
    exact h.packs e (he.mono fun id data hdata => hview .index id ▸ hdata)
  blobs snap id hsnap hid := by
    obtain ⟨id', data, hdata, hread⟩ := hsnap
    rw [hview] at hdata
    obtain ⟨l, hl⟩ := h.blobs snap id ⟨id', data, hdata, hread⟩ hid
    exact ⟨l, hl.mono fun id data hdata => (hview .index id).trans hdata⟩

theorem kept_eq_some : src.kept dst delete p = some data ↔
    dst.fileAt p = some data ∧ (delete = true → (src.fileAt p).isSome) := by
  unfold Files.kept
  split
  · rename_i h
    simp [h]
  · rename_i h
    refine (and_iff_left fun hdelete => ?_).symm
    exact Option.isSome_iff_ne_none.mpr fun hnone => h ⟨hdelete, hnone⟩

/-! ### What is deleted and what is copied -/

/-- The nodes of the destination alone are deleted. -/
theorem mem_toDelete_iff (hagree : src.Agree dst) {n : BackendNode} :
    n ∈ (Sync.start src dst delete).toDelete ↔ delete = true ∧ Synced n.path ∧
      src.lookup n.path = none ∧ ∃ e, dst.lookup n.path = some e ∧ n = .ofEntry n.path e := by
  constructor
  · intro hn
    obtain ⟨hdelete, hn⟩ := Sync.mem_toDelete_start hn
    obtain ⟨hsynced, e, hlook, heq, hdiff⟩ := mem_toDelete.mp hn
    refine ⟨hdelete, hsynced, ?_, e, hlook, heq⟩
    cases hsrc : src.lookup n.path with
    | none => rfl
    | some e' =>
      have hkinds := hdiff e' hsrc
      rw [hagree _ _ _ hsynced hsrc hlook] at hkinds
      cases e <;> exact hkinds.elim
  · rintro ⟨rfl, hsynced, hsrc, e, hlook, heq⟩
    refine mem_toDelete.mpr ⟨hsynced, e, hlook, heq, fun e' he' => ?_⟩
    rw [hsrc] at he'
    cases he'

/-- The nodes of the source alone are copied. -/
theorem mem_toCopy_iff (hagree : src.Agree dst) {n : BackendNode} :
    n ∈ (Sync.start src dst delete).toCopy ↔ Synced n.path ∧ dst.lookup n.path = none ∧
      ∃ e, src.lookup n.path = some e ∧ n = .ofEntry n.path e := by
  refine mem_toCopy.trans ⟨?_, ?_⟩
  · rintro ⟨hsynced, e, hlook, heq, hdiff⟩
    refine ⟨hsynced, ?_, e, hlook, heq⟩
    cases hdst : dst.lookup n.path with
    | none => rfl
    | some e' =>
      have hkinds := hdiff e' hdst
      rw [hagree _ _ _ hsynced hlook hdst] at hkinds
      cases e' with
      | dir => exact hkinds.elim
      | file _ => exact absurd rfl hkinds
  · rintro ⟨hsynced, hdst, e, hlook, heq⟩
    refine ⟨hsynced, e, hlook, heq, fun e' he' => ?_⟩
    rw [hdst] at he'
    cases he'

/-- A file that is kept is not deleted, nor is a directory above it. -/
theorem deletedEntry_of_kept (hsrc : src.WF) (hdst : dst.WF) (hagree : src.Agree dst)
    {removed : List BackendNode} (hremoved : removed ⊆ (Sync.start src dst delete).toDelete)
    (h : src.kept dst delete p = some data) :
    Sync.deletedEntry dst removed p = some (.file data) := by
  obtain ⟨hfile, hboth⟩ := kept_eq_some.mp h
  rw [Sync.deletedEntry_eq_of_forall fun n hn hpre => ?_]
  · exact Files.fileAt_eq_some.mp hfile
  · obtain ⟨hdelete, -, hnone, e, hlook, -⟩ := (mem_toDelete_iff hagree).mp (hremoved hn)
    obtain ⟨data', hdata'⟩ := Option.isSome_iff_exists.mp (hboth hdelete)
    by_cases heq : n.path = p
    · rw [heq, Files.fileAt_eq_some.mp hdata'] at hnone
      cases hnone
    · have hroot : n.path ≠ [] := by
        intro hnil
        rw [hnil, hdst.root] at hlook
        cases hlook
      rw [hsrc.above _ _ _ (Files.fileAt_eq_some.mp hdata') hroot hpre heq] at hnone
      cases hnone

/-- What is left at the end of the deletions is kept. -/
theorem kept_of_deletedEntry (hagree : src.Agree dst) (hsynced : Synced p)
    (h : Sync.deletedEntry dst (Sync.start src dst delete).toDelete p = some (.file data)) :
    src.kept dst delete p = some data := by
  unfold Sync.deletedEntry at h
  split at h
  · cases h
  · rename_i hnot
    refine kept_eq_some.mpr ⟨Files.fileAt_eq_some.mpr h, fun hdelete => ?_⟩
    cases hsrc : src.lookup p with
    | some e =>
      have heq := hagree p e _ hsynced hsrc h
      rw [heq] at hsrc
      rw [Files.fileAt_eq_some.mpr hsrc]
      rfl
    | none =>
      have hmem : BackendNode.file p data.length ∈ (Sync.start src dst delete).toDelete :=
        (mem_toDelete_iff hagree).mpr ⟨hdelete, hsynced, hsrc, _, h, rfl⟩
      refine absurd (List.any_eq_true.mpr ⟨_, hmem, ?_⟩) hnot
      exact decide_eq_true (List.prefix_refl p)

/-- The nodes are deleted in the reverse order of their paths. -/
theorem pairwise_toDelete : (Sync.start src dst true).toDelete.Pairwise fun m n =>
    pathLe n.path m.path = true := by
  have : Std.Total fun m n : BackendNode => pathLe n.path m.path = true :=
    ⟨fun m n => pathLe_total _ _⟩
  have : IsTrans BackendNode fun m n => pathLe n.path m.path = true :=
    ⟨fun _ _ _ h h' => pathLe_trans h' h⟩
  exact List.pairwise_insertionSort _ _

/-! ### The condition is enough -/

section Working

variable {removed : List BackendNode}

/-- A file that is kept is there at every point. -/
theorem fileAt_of_kept (hsrc : src.WF) (hdst : dst.WF) (hagree : src.Agree dst)
    (h : Sync.Working src dst delete removed s) (hkept : src.kept dst delete p = some data) :
    s.files.fileAt p = some data := by
  have hsub : removed ⊆ (Sync.start src dst delete).toDelete := fun n hn =>
    h.split ▸ List.mem_append_left _ hn
  have hdeleted := deletedEntry_of_kept hsrc hdst hagree hsub hkept
  rw [Files.fileAt_eq_some]
  rcases h.entry p with heq | ⟨-, hnot⟩ | ⟨size, hmem, -, -⟩
  · exact heq.trans hdeleted
  · exact absurd hdeleted (hnot data)
  · -- a file of the destination is not copied
    obtain ⟨-, hnone, -⟩ := (mem_toCopy_iff hagree).mp hmem
    change dst.lookup p = none at hnone
    rw [Files.fileAt_eq_some.mp (kept_eq_some.mp hkept).1] at hnone
    cases hnone

/-- A file at some point is one of the source, or one of the destination that is not yet deleted. -/
theorem of_fileAt (h : Sync.Working src dst delete removed s) (hfile : s.files.fileAt p = some data) :
    src.fileAt p = some data ∨ Sync.deletedEntry dst removed p = some (.file data) := by
  rw [Files.fileAt_eq_some] at hfile
  rcases h.entry p with heq | ⟨hdir, -⟩ | ⟨-, -, heq, -⟩
  · exact Or.inr (heq ▸ hfile)
  · rw [hdir] at hfile
    cases hfile
  · exact Or.inl (Files.fileAt_eq_some.mpr (heq ▸ hfile))

theorem fileAt_of_deletedEntry (h : Sync.deletedEntry dst removed p = some (.file data)) :
    dst.fileAt p = some data := by
  unfold Sync.deletedEntry at h
  split at h
  · cases h
  · exact Files.fileAt_eq_some.mpr h

/-- As long as a snapshot of the destination alone is there, no index file has been deleted. -/
theorem fileAt_index (hdst : dst.WF) (hagree : src.Agree dst)
    (h : Sync.Working src dst delete removed s) {id id' : ID} {snapData : Bytes}
    (hnone : src.lookup (getPath .snapshot id) = none)
    (hsnap : Sync.deletedEntry dst removed (getPath .snapshot id) = some (.file snapData))
    (hindex : dst.fileAt (getPath .index id') = some data) :
    s.files.fileAt (getPath .index id') = some data := by
  have hlook := Files.fileAt_eq_some.mp hindex
  have hsynced : Synced (getPath .snapshot id) := synced_getPath ContentIdType.noConfusion id
  cases delete with
  | false =>
    -- nothing is deleted
    have hnil : removed = [] := (List.append_eq_nil_iff.mp h.split).1
    subst hnil
    have hdeleted : Sync.deletedEntry dst [] (getPath .index id') = some (.file data) := hlook
    rw [Files.fileAt_eq_some]
    rcases h.entry (getPath .index id') with heq | ⟨-, hnot⟩ | ⟨size, hmem, -, -⟩
    · exact heq.trans hdeleted
    · exact absurd hdeleted (hnot data)
    · obtain ⟨-, hfree, -⟩ := (mem_toCopy_iff hagree).mp hmem
      change dst.lookup (getPath .index id') = none at hfree
      rw [hlook] at hfree
      cases hfree
  | true =>
    have hmem : BackendNode.file (getPath .snapshot id) snapData.length ∈
        (Sync.start src dst true).toDelete := (mem_toDelete_iff hagree).mpr ⟨rfl, hsynced, hnone,
      _, Files.fileAt_eq_some.mp (fileAt_of_deletedEntry hsnap), rfl⟩
    have hnotRemoved : BackendNode.file (getPath .snapshot id) snapData.length ∉ removed := by
      intro hin
      rw [Sync.deletedEntry, if_pos] at hsnap
      · cases hsnap
      · exact List.any_eq_true.mpr ⟨_, hin, decide_eq_true (List.prefix_refl _)⟩
    rw [← h.split] at hmem
    have htodo := (List.mem_append.mp hmem).resolve_left hnotRemoved
    obtain ⟨-, -, hfiles⟩ := h.deleting (List.ne_nil_of_mem htodo)
    have hsorted : (Sync.start src dst true).toDelete.Pairwise fun m n =>
        pathLe n.path m.path = true := pairwise_toDelete
    rw [Files.fileAt_eq_some, hfiles, Sync.deletedEntry_eq_of_forall fun n hn hpre => ?_, hlook]
    -- what was deleted before the snapshot comes after it
    rw [← h.split] at hsorted
    have hle := (List.pairwise_append.mp hsorted).2.2 n hn _ htodo
    have hroot : n.path ≠ [] := by
      intro hnil
      obtain ⟨-, -, -, e, he, -⟩ := (mem_toDelete_iff hagree).mp
        (h.split ▸ List.mem_append_left _ hn : n ∈ (Sync.start src dst true).toDelete)
      rw [hnil, hdst.root] at he
      cases he
    rw [BackendNode.path, not_pathLe_index (Or.inr rfl) hpre hroot] at hle
    cases hle

/-- Where nothing needs what is copied or deleted, the destination is usable at every point. -/
theorem Independent.usable (h : R.Independent codec plain src dst delete) (hsrc : src.WF)
    (hdst : dst.WF) (hagree : src.Agree dst) (hudst : R.Usable codec plain dst.fileAt)
    (hs : Sync.Working src dst delete removed s) : R.Usable codec plain s.files.fileAt where
  packs := by
    rintro e ⟨id, data, f, hfile, hread, he⟩
    have hlists : R.Lists src.fileAt e ∨ R.Lists dst.fileAt e :=
      (of_fileAt hs hfile).imp (fun hdata => ⟨id, data, f, hdata, hread, he⟩)
        fun hdata => ⟨id, data, f, fileAt_of_deletedEntry hdata, hread, he⟩
    obtain ⟨pack, hpack⟩ := Option.isSome_iff_exists.mp (h.packs e hlists)
    rw [fileAt_of_kept hsrc hdst hagree hs hpack]
    rfl
  blobs := by
    rintro snap blob ⟨id, data, hfile, hread⟩ hblob
    have hof : R.HasSnapshot src.fileAt snap → ∃ l, R.Lists s.files.fileAt (blob, l) := by
      intro hsnap
      obtain ⟨l, hl⟩ := h.blobs snap blob hsnap hblob
      exact ⟨l, hl.mono fun id data hkept => fileAt_of_kept hsrc hdst hagree hs hkept⟩
    rcases of_fileAt hs hfile with hdata | hdeleted
    · exact hof ⟨id, data, hdata, hread⟩
    · have hdata := fileAt_of_deletedEntry hdeleted
      cases hlook : src.lookup (getPath .snapshot id) with
      | some e =>
        have heq := hagree _ _ _ (synced_getPath ContentIdType.noConfusion id) hlook
          (Files.fileAt_eq_some.mp hdata)
        subst heq
        exact hof ⟨id, data, Files.fileAt_eq_some.mpr hlook, hread⟩
      | none =>
        obtain ⟨l, hl⟩ := hudst.blobs snap blob ⟨id, data, hdata, hread⟩ hblob
        exact ⟨l, hl.mono fun id' data' => fileAt_index hdst hagree hs hlook hdeleted⟩

/-- So it is in every state of every run. -/
theorem Independent.usable_of_run (h : R.Independent codec plain src dst delete) (hsrc : src.WF)
    (hdst : dst.WF) (hagree : src.Agree dst) (hudst : R.Usable codec plain dst.fileAt)
    {ls : List Sync.Event} (hrun : Run (Sync.Step src) (Sync.start src dst delete) ls s) :
    R.Usable codec plain s.files.fileAt := by
  have hinv : Sync.Inv src dst delete s :=
    Run.invariant (P := Sync.Inv src dst delete) (fun _ _ _ h hstep => Sync.Step.inv hsrc hstep h) hrun
      (Or.inl ⟨rfl, [], Sync.working_start src dst delete⟩)
  rcases hinv with ⟨-, removed, hs⟩ | ⟨-, files, hs, hfiles⟩
  · exact h.usable hsrc hdst hagree hudst hs
  · have husable : R.Usable codec plain files.fileAt := h.usable hsrc hdst hagree hudst hs
    rcases hfiles with ⟨-, data, -, hwrite⟩ | ⟨-, heq⟩
    · -- the manifest is none of the files that are read
      refine husable.congr fun fileType id => ?_
      have hne : getPath fileType id ≠ manifestPath := by
        intro heq
        have hhead := head?_getPath fileType id
        rw [heq] at hhead
        cases fileType <;> exact absurd hhead (by decide)
      obtain ⟨-, -, hlook⟩ := Files.lookup_write hwrite
      rw [Files.fileAt, hlook, if_neg hne, if_neg fun hpre => hpre.2 (List.prefix_nil.mp hpre.1),
        Files.fileAt]
    · rw [heq]
      exact husable

end Working

/-! ### The condition is necessary -/

section Necessary

/-- The copy of an index file or a snapshot of the source alone succeeds after the deletions. -/
theorem exists_copied (hsrc : src.WF) (hagree : src.Agree dst) {fileType : ContentIdType} {id : ID}
    (ht : fileType = .index ∨ fileType = .snapshot)
    (hdata : src.fileAt (getPath fileType id) = some data)
    (hfree : dst.lookup (getPath fileType id) = none) :
    ∃ ls s, Run (Sync.Step src) (Sync.start src dst delete) ls s ∧
      s.files.fileAt (getPath fileType id) = some data ∧
      ∀ fileType' id' data', getPath fileType' id' ≠ getPath fileType id →
        fileType' ≠ .lock → s.files.fileAt (getPath fileType' id') = some data' →
        src.kept dst delete (getPath fileType' id') = some data' := by
  have hne : fileType ≠ .lock ∧ fileType ≠ .pack := by
    rcases ht with rfl | rfl <;> exact ⟨ContentIdType.noConfusion, ContentIdType.noConfusion⟩
  have hsynced := synced_getPath hne.1 id
  have hmem : BackendNode.file (getPath fileType id) data.length ∈
      (Sync.start src dst delete).toCopy :=
    (mem_toCopy_iff hagree).mpr ⟨hsynced, hfree, _, Files.fileAt_eq_some.mp hdata, rfl⟩
  -- a deletion creates nothing
  have hgone : ∀ {q}, dst.lookup q = none →
      Sync.deletedEntry dst (Sync.start src dst delete).toDelete q = none := by
    intro q hq
    unfold Sync.deletedEntry
    split
    · rfl
    · exact hq
  -- the run in which this copy is the first one that completes
  obtain ⟨ls, s, files, hrun, hfiles, hcopy⟩ := Sync.exists_run_copy hmem fun files hfiles => by
    change ∃ files', (src.fileAt (getPath fileType id)).bind (files.write _) = some files'
    rw [hdata, Option.bind_some]
    refine Files.exists_write data ?_ fun q hq hroot => ?_
    · rw [hfiles, hgone hfree]
      exact nofun
    · -- the directory above is one on both sides
      have htop := eq_topDir hne.2 hq hroot
      have hlt : q <+: getPath fileType id ∧ q ≠ getPath fileType id := by
        refine ⟨hq.trans (List.dropLast_prefix _), fun heq => ?_⟩
        rw [heq] at hq
        have hlen := hq.length_le
        rw [List.length_dropLast] at hlen
        have hpos := List.length_pos_iff.mpr (heq ▸ hroot)
        omega
      have hdir := hsrc.above _ _ _ (Files.fileAt_eq_some.mp hdata) hroot hlt.1 hlt.2
      have hq' : Synced q := by
        rw [htop]
        rcases ht with rfl | rfl <;> decide
      rw [Files.fileAt_eq_none, hfiles]
      cases hlook : dst.lookup q with
      | none => exact Or.inl (hgone hlook)
      | some e =>
        have heq := hagree q _ e hq' hdir hlook
        subst heq
        unfold Sync.deletedEntry
        split
        · exact Or.inl rfl
        · exact Or.inr hlook
  have hwrite : files.write (getPath fileType id) data = some s.files := by
    change (src.fileAt (getPath fileType id)).bind (files.write _) = _ at hcopy
    rwa [hdata, Option.bind_some] at hcopy
  obtain ⟨-, -, hlook⟩ := Files.lookup_write hwrite
  refine ⟨ls, s, hrun, ?_, fun fileType' id' data' hother ht' hfile => ?_⟩
  · rw [Files.fileAt_eq_some, hlook, if_pos rfl]
  · rw [Files.fileAt_eq_some, hlook, if_neg hother] at hfile
    split at hfile
    · cases hfile
    · rw [hfiles] at hfile
      exact kept_of_deletedEntry hagree (synced_getPath ht' id') hfile

/-- Where a pack is deleted that an index file lists, the destination is not usable at that point. -/
theorem exists_pack_deleted (hdst : dst.WF) (hagree : src.Agree dst) {e : ID × BlobLocator}
    (he : R.Lists dst.fileAt e) (hpack : dst.fileAt (getPath .pack e.2.packId) = some data)
    (hnone : src.fileAt (getPath .pack e.2.packId) = none) :
    ∃ ls s, Run (Sync.Step src) (Sync.start src dst true) ls s ∧
      R.Lists s.files.fileAt e ∧ s.files.fileAt (getPath .pack e.2.packId) = none := by
  have hlook := Files.fileAt_eq_some.mp hpack
  have hsynced : Synced (getPath .pack e.2.packId) := synced_getPath ContentIdType.noConfusion _
  have hgone : src.lookup (getPath .pack e.2.packId) = none := by
    rcases Files.fileAt_eq_none.mp hnone with h | h
    · exact h
    · cases hagree _ _ _ hsynced h hlook
  have hmem : BackendNode.file (getPath .pack e.2.packId) data.length ∈
      (Sync.start src dst true).toDelete :=
    (mem_toDelete_iff hagree).mpr ⟨rfl, hsynced, hgone, _, hlook, rfl⟩
  -- the run stops right after the deletion of the pack
  obtain ⟨before, after, hsplit⟩ := List.append_of_mem hmem
  have hsplit' : (Sync.start src dst true).toDelete =
      (before ++ [.file (getPath .pack e.2.packId) data.length]) ++ after := by
    rw [hsplit, List.append_assoc, List.singleton_append]
  obtain ⟨ls, s, hrun, -, -, -, hfiles⟩ := Sync.exists_run_deletes hsplit'
  refine ⟨ls, s, hrun, he.mono fun id data' hindex => ?_, ?_⟩
  · have hsorted : (Sync.start src dst true).toDelete.Pairwise fun m n =>
        pathLe n.path m.path = true := pairwise_toDelete
    rw [Files.fileAt_eq_some, hfiles, Sync.deletedEntry_eq_of_forall fun n hn hpre => ?_]
    · exact Files.fileAt_eq_some.mp hindex
    · -- no index file comes before a pack in the list
      have hroot : n.path ≠ [] := by
        intro hnil
        obtain ⟨-, -, -, e, he, -⟩ := (mem_toDelete_iff hagree).mp
          (hsplit' ▸ List.mem_append_left _ hn : n ∈ (Sync.start src dst true).toDelete)
        rw [hnil, hdst.root] at he
        cases he
      have hle : pathLe (getPath .pack e.2.packId) n.path = true := by
        rcases List.mem_append.mp hn with hbefore | hself
        · rw [hsplit] at hsorted
          exact (List.pairwise_append.mp hsorted).2.2 n hbefore _ List.mem_cons_self
        · rw [List.mem_singleton.mp hself]
          exact pathLe_refl _
      rw [not_pathLe_index (Or.inl rfl) hpre hroot] at hle
      cases hle
  · rw [Files.fileAt_eq_none, hfiles, Sync.deletedEntry, if_pos]
    · exact Or.inl rfl
    · refine List.any_eq_true.mpr ⟨_, List.mem_append_right _ (List.mem_singleton_self _), ?_⟩
      exact decide_eq_true (List.prefix_refl _)

/-- Where every run leaves the destination usable at every point, nothing needs what is copied or
deleted. -/
theorem independent_of_usable (hsrc : src.WF) (hdst : dst.WF) (hagree : src.Agree dst)
    (hudst : R.Usable codec plain dst.fileAt)
    (h : ∀ ls s, Run (Sync.Step src) (Sync.start src dst delete) ls s →
      R.Usable codec plain s.files.fileAt) : R.Independent codec plain src dst delete where
  packs := by
    -- an index file of the destination: its pack is not deleted
    have hold : ∀ e, R.Lists dst.fileAt e →
        (src.kept dst delete (getPath .pack e.2.packId)).isSome := by
      intro e he
      obtain ⟨data, hpack⟩ := Option.isSome_iff_exists.mp (hudst.packs e he)
      by_contra hnot
      rw [Bool.not_eq_true, Option.isSome_eq_false_iff, Option.isNone_iff_eq_none] at hnot
      obtain ⟨rfl, hnone⟩ : delete = true ∧ src.fileAt (getPath .pack e.2.packId) = none := by
        unfold Files.kept at hnot
        split at hnot
        · assumption
        · rw [hpack] at hnot
          cases hnot
      obtain ⟨ls, s, hrun, hlists, hgone⟩ := exists_pack_deleted hdst hagree he hpack hnone
      have hsome := (h ls s hrun).packs e hlists
      rw [hgone] at hsome
      cases hsome
    -- an index file of the source is there already, or it may be the first to arrive
    rintro e (⟨id, data, f, hfile, hread, he⟩ | he)
    · cases hlook : dst.lookup (getPath .index id) with
      | some e' =>
        have heq := hagree _ _ _ (synced_getPath ContentIdType.noConfusion id)
          (Files.fileAt_eq_some.mp hfile) hlook
        subst heq
        exact hold e ⟨id, data, f, Files.fileAt_eq_some.mpr hlook, hread, he⟩
      | none =>
        obtain ⟨ls, s, hrun, hcopied, hother⟩ := exists_copied hsrc hagree (Or.inl rfl) hfile hlook
        obtain ⟨pack, hpack⟩ := Option.isSome_iff_exists.mp
          ((h ls s hrun).packs e ⟨id, data, f, hcopied, hread, he⟩)
        rw [hother .pack _ _ ?_ ContentIdType.noConfusion hpack]
        · rfl
        · intro heq
          have hhead := congrArg List.head? heq
          rw [head?_getPath, head?_getPath] at hhead
          exact absurd hhead (by decide)
    · exact hold e he
  blobs := by
    rintro snap blob ⟨id, data, hfile, hread⟩ hblob
    have hall : (Sync.start src dst delete).toDelete = (Sync.start src dst delete).toDelete ++ [] :=
      (List.append_nil _).symm
    -- a snapshot that is there already meets all deletions, another one may arrive first
    cases hlook : dst.lookup (getPath .snapshot id) with
    | some e' =>
      have heq := hagree _ _ _ (synced_getPath ContentIdType.noConfusion id)
        (Files.fileAt_eq_some.mp hfile) hlook
      subst heq
      obtain ⟨ls, s, hrun, -, -, -, hfiles⟩ := Sync.exists_run_deletes hall
      have hkept : src.kept dst delete (getPath .snapshot id) = some data :=
        kept_eq_some.mpr ⟨Files.fileAt_eq_some.mpr hlook, fun _ => by rw [hfile]; rfl⟩
      have hthere : s.files.fileAt (getPath .snapshot id) = some data := by
        rw [Files.fileAt_eq_some, hfiles]
        exact deletedEntry_of_kept hsrc hdst hagree (List.Subset.refl _) hkept
      obtain ⟨l, hl⟩ := (h ls s hrun).blobs snap blob ⟨id, data, hthere, hread⟩ hblob
      refine ⟨l, hl.mono fun id' data' hindex => ?_⟩
      rw [Files.fileAt_eq_some, hfiles] at hindex
      exact kept_of_deletedEntry hagree (synced_getPath ContentIdType.noConfusion id') hindex
    | none =>
      obtain ⟨ls, s, hrun, hcopied, hother⟩ := exists_copied hsrc hagree (Or.inr rfl) hfile hlook
      obtain ⟨l, hl⟩ := (h ls s hrun).blobs snap blob ⟨id, data, hcopied, hread⟩ hblob
      refine ⟨l, hl.mono fun id' data' hindex => ?_⟩
      refine hother .index id' data' (fun heq => ?_) ContentIdType.noConfusion hindex
      have hhead := congrArg List.head? heq
      rw [head?_getPath, head?_getPath] at hhead
      exact absurd hhead (by decide)

/-- **When an interrupted synchronization leaves the destination usable.** Every run can be stopped
at any point, in whatever order its copies complete, if and only if nothing that is copied or left
needs anything that is copied or deleted. -/
theorem usable_iff_independent (hsrc : src.WF) (hdst : dst.WF) (hagree : src.Agree dst)
    (hudst : R.Usable codec plain dst.fileAt) :
    (∀ ls s, Run (Sync.Step src) (Sync.start src dst delete) ls s →
      R.Usable codec plain s.files.fileAt) ↔ R.Independent codec plain src dst delete :=
  ⟨independent_of_usable hsrc hdst hagree hudst,
    fun h _ _ hrun => h.usable_of_run hsrc hdst hagree hudst hrun⟩

end Necessary

end

/-! ### Concrete repositories -/

/-- The one index file that can be read lists the blob 5 in the pack 2. -/
def sampleReader : RepoReader where
  readIndex := fun data => if data = [9] then some ⟨[⟨2, [⟨5, .data, 0, 2, 1⟩]⟩]⟩ else none
  readSnapshot := fun data => if data = [8] then some ⟨1⟩ else none

/-- A repository with a pack. -/
def packFiles : Files :=
  AList.insert objectsDir .dir (AList.insert (fanoutDir 2) .dir
    (AList.insert (getPath .pack 2) (.file [1, 5]) ∅))

/-- A repository with the pack and the index file that lists it. -/
def indexedFiles : Files :=
  AList.insert indexDir .dir (AList.insert (getPath .index 3) (.file [9]) packFiles)

section Sample

variable {codec : TreeCodec} {plain : ID → Bytes}

/-- The entries of the index file all point to the pack 2. -/
theorem packId_of_readIndex {data : Bytes} {f : IndexFile} (h : sampleReader.readIndex data = some f) :
    ∀ e ∈ f.entries, e.2.packId = 2 := by
  change (if data = [9] then _ else none) = some f at h
  split at h
  · cases h
    decide
  · cases h

theorem not_hasSnapshot {files : Files} (h : ∀ e ∈ Table.toList files, e.2 ≠ .file [8])
    (snap : Snapshot) : ¬ sampleReader.HasSnapshot files.fileAt snap := by
  rintro ⟨id, data, hfile, hread⟩
  have hmem := Table.mem_toList.mpr (Files.fileAt_eq_some.mp hfile)
  change (if data = [8] then _ else none) = some snap at hread
  split at hread
  · rename_i hdata
    exact absurd (congrArg Entry.file hdata) (h _ hmem)
  · cases hread

/-- Files without a snapshot, and with the pack where there is an index file. -/
theorem usable_of_pack {files : Files} (hsnapshot : ∀ e ∈ Table.toList files, e.2 ≠ .file [8])
    (hpack : (∃ id data, files.fileAt (getPath .index id) = some data) →
      (files.fileAt (getPath .pack 2)).isSome) : sampleReader.Usable codec plain files.fileAt where
  packs := by
    rintro e ⟨id, data, f, hfile, hread, he⟩
    rw [packId_of_readIndex hread e he]
    exact hpack ⟨id, data, hfile⟩
  blobs := fun snap _ hsnap => absurd hsnap (not_hasSnapshot hsnapshot snap)

theorem wf_indexedFiles : indexedFiles.WF := .of_toList rfl (by decide +kernel)

/-- With its pack on the destination the index file can be copied, and the run can stop at any
point. -/
theorem usable_after_index : ∃ ls s, Run (Sync.Step indexedFiles)
    (Sync.start indexedFiles packFiles true) ls s ∧
    s.files.fileAt (getPath .index 3) = some [9] ∧
    sampleReader.Usable (.single [] []) (fun _ => []) s.files.fileAt := by
  have hagree : indexedFiles.Agree packFiles := by
    intro p e e' _ hsrc hdst
    have hall : ∀ x ∈ Table.toList packFiles, indexedFiles.lookup x.1 = some x.2 := by decide +kernel
    rw [hall _ (Table.mem_toList.mpr hdst)] at hsrc
    cases hsrc
    rfl
  have hindependent : sampleReader.Independent (.single [] []) (fun _ => []) indexedFiles packFiles
      true := by
    refine ⟨?_, ?_⟩
    · rintro e (⟨_, _, f, _, hread, he⟩ | ⟨_, _, f, _, hread, he⟩) <;>
        rw [packId_of_readIndex hread e he] <;> decide +kernel
    · intro snap id hsnap
      exact absurd hsnap (not_hasSnapshot (by decide +kernel) snap)
  obtain ⟨ls, s, hrun, hfile, -⟩ : ∃ ls s, Run (Sync.Step indexedFiles)
      (Sync.start indexedFiles packFiles true) ls s ∧
        s.files.fileAt (getPath .index 3) = some [9] ∧ _ :=
    exists_copied wf_indexedFiles hagree (Or.inl rfl) (by decide +kernel) (by decide +kernel)
  exact ⟨ls, s, hrun, hfile, (usable_iff_independent wf_indexedFiles (.of_toList rfl (by decide +kernel))
    hagree (usable_of_pack (by decide +kernel) fun _ => by decide +kernel)).mpr hindependent ls s hrun⟩

/-- The index file is copied before the pack that it lists. A synchronization that stops there
leaves an index entry without a pack, although the source and the destination were usable. -/
theorem index_before_packs :
    ∃ ls s, Run (Sync.Step indexedFiles) (Sync.start indexedFiles ∅ false) ls s ∧
    sampleReader.Usable (.single [] []) (fun _ => []) indexedFiles.fileAt ∧
    sampleReader.Usable (.single [] []) (fun _ => []) (∅ : Files).fileAt ∧
    ¬ sampleReader.Usable (.single [] []) (fun _ => []) s.files.fileAt := by
  obtain ⟨ls, s, hrun, hfile, hother⟩ : ∃ ls s, Run (Sync.Step indexedFiles)
      (Sync.start indexedFiles ∅ false) ls s ∧
        s.files.fileAt (getPath .index 3) = some [9] ∧ _ :=
    exists_copied wf_indexedFiles (fun _ _ _ _ _ h => by cases h) (Or.inl rfl) (by decide +kernel) rfl
  refine ⟨ls, s, hrun, usable_of_pack (by decide +kernel) fun _ => by decide +kernel,
    usable_of_pack (by decide +kernel) (fun ⟨_, _, h⟩ => nomatch h), fun h => ?_⟩
  obtain ⟨pack, hpack⟩ := Option.isSome_iff_exists.mp
    (h.packs (5, ⟨2, 0, 2, 1, .data⟩) ⟨3, [9], _, hfile, rfl, by decide⟩)
  have hkept := hother .pack 2 pack (by decide +kernel) ContentIdType.noConfusion hpack
  cases hkept

end Sample

end RepoReader

end Mapache
