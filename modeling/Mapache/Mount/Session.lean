import Mapache.Mount.Init
import Mapache.Mount.Load
import Mapache.Mount.ReadFile

/-!
# The view of a mount over a session

`init` is called before any other request. What a request does to the inodes is `Stepped`: it
extends what was handed out, and a lazy directory that it loads shows its tree (`handle_spec`). Over
any sequence of requests this gives `mount_faithful`.
-/

set_option autoImplicit false

namespace Mapache

open Lib

namespace MapacheFS

/-- The nodes of a stored tree. -/
def treeNodes (codec : TreeCodec) (plain : ID → Bytes) (t : ID) : List Node :=
  (codec.fromSlice (plain t)).getD []

/-- The names of a tree are distinct, and what a node of it has as its tree is one. -/
structure DistinctNames (codec : TreeCodec) (plain : ID → Bytes) (IsTree : ID → Prop) : Prop where
  names : ∀ t, IsTree t → ((treeNodes codec plain t).map Node.name).Nodup
  below : ∀ t node t', IsTree t → node ∈ treeNodes codec plain t → node.tree = some t' → IsTree t'

/-- What holds of a mount between requests. -/
structure View (env : MountEnv) (plain : ID → Bytes) (IsTree : ID → Prop) (fs : MapacheFS) : Prop where
  wf : fs.stash.Wf
  lazyDir : ∀ ino node t, fs.stash.nodes.lookup ino = some node → node.kind = .lazyDir t → IsTree t
  cached : fs.treeCache.Holds (treeNodes env.codec plain)

/-- What a request does to the inodes. -/
structure Stepped (env : MountEnv) (plain : ID → Bytes) (s s' : Stash) : Prop where
  extended : s.Extends s'
  shows : ∀ ino node t node' children, s.nodes.lookup ino = some node → node.kind = .lazyDir t →
    s'.nodes.lookup ino = some node' → node'.kind = .dir children →
    s'.Shows env.symlinkTarget ino node.attr.crtime (treeNodes env.codec plain t)
  /-- A loaded directory was loaded before, or lazy. -/
  dir : ∀ ino, s'.IsDir ino → s.IsDir ino ∨
    ∃ node t, s.nodes.lookup ino = some node ∧ node.kind = .lazyDir t

section Requests

variable {env : MountEnv} {plain : ID → Bytes} {IsTree : ID → Prop} {loadBlob : ID → Option Bytes}
  {fs fs' : MapacheFS} {ino : INodeNo}

theorem Stepped.refl (s : Stash) : Stepped env plain s s := by
  refine ⟨.refl s, ?_, fun ino hdir => Or.inl hdir⟩
  intro ino node t node' children hnode hlazy hnode' hdir
  cases hnode.symm.trans hnode'
  rw [hlazy] at hdir
  cases hdir

theorem Stepped.of_loads {s s' : Stash} {node : FsNode} {t : ID}
    (hnode : s.nodes.lookup ino = some node)
    (hlazy : node.kind = .lazyDir t)
    (h : s.Loads env.symlinkTarget ino node.attr.crtime (treeNodes env.codec plain t) s') :
    Stepped env plain s s' := by
  refine ⟨h.extended, ?_, ?_⟩
  · intro i fsNode t' fsNode' children hi hlazy' hi' hdir
    rcases h.dir i fsNode' children hi' hdir with rfl | hold
    · cases hnode.symm.trans hi
      rw [hlazy] at hlazy'
      cases hlazy'
      exact h.shows
    · cases hi.symm.trans hold
      rw [hlazy'] at hdir
      cases hdir
  · rintro i ⟨fsNode, children, hi, hdir⟩
    rcases h.dir i fsNode children hi hdir with rfl | hold
    · exact Or.inr ⟨node, t, hnode, hlazy⟩
    · exact Or.inl ⟨fsNode, children, hold, hdir⟩

theorem treeOf_sound (hsound : SoundLoader plain loadBlob) {t : ID} {tree : List Node}
    (h : treeOf loadBlob env.codec t = some tree) : tree = treeNodes env.codec plain t := by
  obtain ⟨data, hdata, htree⟩ := Option.bind_eq_some_iff.mp h
  rw [treeNodes, ← hsound t data hdata, htree, Option.getD_some]

/-- **Looking into a directory** keeps the view; if it succeeds, the directory is not lazy any more.
-/
theorem ensureLoaded_spec (hnames : DistinctNames env.codec plain IsTree)
    (hsound : SoundLoader plain loadBlob) (h : fs.View env plain IsTree) {ok : Bool}
    (heq : fs.ensureLoaded env loadBlob ino = (ok, fs')) :
    fs'.View env plain IsTree ∧ Stepped env plain fs.stash fs'.stash ∧
      (ok = true → ∀ node t, fs'.stash.nodes.lookup ino = some node → node.kind ≠ .lazyDir t) := by
  unfold ensureLoaded at heq
  split at heq
  · rename_i hnone
    cases heq
    refine ⟨h, .refl _, fun _ node t hnode => ?_⟩
    cases hnode.symm.trans hnone
  · rename_i node hnode
    split at heq
    · rename_i t hlazy
      have htrees : ∀ tree, treeOf loadBlob env.codec t = some tree →
          tree = treeNodes env.codec plain t := fun tree => treeOf_sound hsound
      split at heq
      · rename_i treeCache hmiss
        cases heq
        obtain ⟨hcached, -⟩ := TreeCache.load_spec h.cached htrees hmiss
        exact ⟨⟨h.wf, h.lazyDir, hcached⟩, .refl _, nofun⟩
      · rename_i tree treeCache hhit
        cases heq
        obtain ⟨hcached, htree⟩ := TreeCache.load_spec h.cached htrees hhit
        cases htree tree rfl
        have htreeOf : IsTree t := h.lazyDir ino node t hnode hlazy
        have hloads := finishLoad_spec env.symlinkTarget node.attr.crtime h.wf hnode hlazy
          (hnames.names t htreeOf)
        refine ⟨⟨hloads.wf, ?_, hcached⟩, .of_loads hnode hlazy hloads, ?_⟩
        · intro i fsNode t' hi hlazy'
          rcases hloads.lazyDir i fsNode t' hi hlazy' with hold | ⟨n, hn, htree'⟩
          · exact h.lazyDir i fsNode t' hold hlazy'
          · exact hnames.below t n t' htreeOf hn htree'
        · intro _ node' t' hnode' hlazy'
          obtain ⟨node'', children, hnode'', hdir⟩ := hloads.loaded
          cases hnode'.symm.trans hnode''
          rw [hdir] at hlazy'
          cases hlazy'
    · rename_i hkind
      cases heq
      refine ⟨h, .refl _, fun _ node' t hnode' => ?_⟩
      cases hnode'.symm.trans hnode
      exact hkind t

/-- The loader has the tree of the directory, if that is not loaded yet. -/
def TreeLoads (env : MountEnv) (node : FsNode) (loadBlob : ID → Option Bytes) : Prop :=
  ∀ t, node.kind = .lazyDir t → (treeOf loadBlob env.codec t).isSome = true

theorem TreeLoads.of_upgrades {node node' : FsNode} (h : TreeLoads env node loadBlob)
    (hup : node.Upgrades node') : TreeLoads env node' loadBlob := by
  intro t hlazy
  rcases hup.kind with hsame | ⟨_, children, -, hdir⟩
  · exact h t (hsame ▸ hlazy)
  · rw [hdir] at hlazy
    cases hlazy

/-- Looking into a directory succeeds where its tree loads, and then `readdir` answers. -/
theorem readdir_answers {node : FsNode} (hnode : fs.stash.nodes.lookup ino = some node)
    (h : TreeLoads env node loadBlob) (offset page : Nat) :
    ∃ entries fs', fs.readdir env loadBlob ino offset page = (.entries entries, fs') := by
  have hloaded : ∃ fs', fs.ensureLoaded env loadBlob ino = (true, fs') := by
    unfold ensureLoaded Stash.getNode
    rw [hnode]
    dsimp only
    cases hkind : node.kind with
    | lazyDir t =>
      dsimp only
      have hsome := fs.treeCache.load_isSome (h t hkind)
      cases hload : fs.treeCache.load loadBlob env.codec t with
      | mk tree cache =>
        rw [hload] at hsome
        obtain ⟨nodes, rfl⟩ := Option.isSome_iff_exists.mp hsome
        exact ⟨_, rfl⟩
    | dir children => exact ⟨_, rfl⟩
    | file blobs => exact ⟨_, rfl⟩
    | symlink target => exact ⟨_, rfl⟩
  obtain ⟨fs', hfs'⟩ := hloaded
  rw [readdir, hfs']
  exact ⟨_, _, rfl⟩

/-- A request other than `init`. -/
def Request.AfterInit : Request → Prop
  | .init _ => False
  | _ => True

/-- **Every request keeps the view.** -/
theorem handle_spec (hnames : DistinctNames env.codec plain IsTree)
    (hsound : SoundLoader plain loadBlob) (h : fs.View env plain IsTree) {request : Request}
    (hinit : request.AfterInit) :
    (fs.handle env loadBlob request).2.View env plain IsTree ∧
      Stepped env plain fs.stash (fs.handle env loadBlob request).2.stash := by
  cases request with
  | init snapshots => exact hinit.elim
  | lookup parent name =>
    rw [handle, lookup]
    split
    · exact ⟨h, .refl _⟩
    · split
      · rename_i heq
        obtain ⟨hview, hstep, -⟩ := ensureLoaded_spec hnames hsound h heq
        exact ⟨hview, hstep⟩
      · rename_i heq
        obtain ⟨hview, hstep, -⟩ := ensureLoaded_spec hnames hsound h heq
        split <;> exact ⟨hview, hstep⟩
  | getattr ino => exact ⟨h, .refl _⟩
  | readdir ino offset page =>
    rw [handle, readdir]
    split <;> rename_i heq <;>
      obtain ⟨hview, hstep, -⟩ := ensureLoaded_spec hnames hsound h heq <;> exact ⟨hview, hstep⟩
  | «open» ino => exact ⟨h, .refl _⟩
  | read ino offset size =>
    rw [handle, MapacheFS.read]
    split
    · exact ⟨h, .refl _⟩
    · split
      · split <;> exact ⟨⟨h.wf, h.lazyDir, h.cached⟩, .refl _⟩
      · exact ⟨h, .refl _⟩
  | readlink ino => exact ⟨h, .refl _⟩

/-- Requests after `init`, each handled while the loader gives contents of blobs. -/
def Requests (plain : ID → Bytes) (requests : List (Request × (ID → Option Bytes))) : Prop :=
  ∀ r ∈ requests, r.1.AfterInit ∧ SoundLoader plain r.2

variable {requests : List (Request × (ID → Option Bytes))}

/-- A run keeps the view and takes nothing back. -/
theorem run_spec (hnames : DistinctNames env.codec plain IsTree) (h : fs.View env plain IsTree)
    (hrequests : Requests plain requests) :
    (fs.run env requests).View env plain IsTree ∧ fs.stash.Extends (fs.run env requests).stash := by
  induction requests generalizing fs with
  | nil => exact ⟨h, .refl _⟩
  | cons r requests ih =>
    rw [Requests, List.forall_mem_cons] at hrequests
    obtain ⟨hview, hstep⟩ := handle_spec hnames hrequests.1.2 h hrequests.1.1
    obtain ⟨hview', hextends⟩ := ih hview hrequests.2
    exact ⟨hview', hstep.extended.trans hextends⟩

/-- A lazy directory that is loaded later on shows its tree. -/
theorem run_shows (hnames : DistinctNames env.codec plain IsTree) (h : fs.View env plain IsTree)
    (hrequests : Requests plain requests) {node node' : FsNode} {t : ID}
    {children : Table String INodeNo} (hnode : fs.stash.nodes.lookup ino = some node)
    (hlazy : node.kind = .lazyDir t)
    (hnode' : (fs.run env requests).stash.nodes.lookup ino = some node')
    (hdir : node'.kind = .dir children) :
    (fs.run env requests).stash.Shows env.symlinkTarget ino node.attr.crtime
      (treeNodes env.codec plain t) := by
  induction requests generalizing fs node with
  | nil =>
    cases hnode.symm.trans hnode'
    rw [hlazy] at hdir
    cases hdir
  | cons r requests ih =>
    rw [Requests, List.forall_mem_cons] at hrequests
    obtain ⟨hview, hstep⟩ := handle_spec hnames hrequests.1.2 h hrequests.1.1
    obtain ⟨node₁, hnode₁, hup⟩ := hstep.extended.nodes ino node hnode
    rcases hup.kind with hsame | ⟨_, children₁, -, hdir₁⟩
    · rw [← hup.attr_crtime]
      exact ih hview hrequests.2 hnode₁ (hsame.trans hlazy) hnode'
    · have hshows := hstep.shows ino node t node₁ children₁ hnode hlazy hnode₁ hdir₁
      exact hshows.of_extends (run_spec hnames hview hrequests.2).2 hnode₁ hdir₁

/-- A loaded directory was there at the start, or was lazy at some moment. -/
theorem run_dir (hnames : DistinctNames env.codec plain IsTree) (h : fs.View env plain IsTree)
    (hrequests : Requests plain requests) (hdir : (fs.run env requests).stash.IsDir ino) :
    fs.stash.IsDir ino ∨ ∃ before after node t, requests = before ++ after ∧
      (fs.run env before).stash.nodes.lookup ino = some node ∧ node.kind = .lazyDir t := by
  induction requests generalizing fs with
  | nil => exact Or.inl hdir
  | cons r requests ih =>
    rw [Requests, List.forall_mem_cons] at hrequests
    obtain ⟨hview, hstep⟩ := handle_spec hnames hrequests.1.2 h hrequests.1.1
    rcases ih hview hrequests.2 hdir with hdir₁ | ⟨before, after, node, t, rfl, hnode, hlazy⟩
    · rcases hstep.dir ino hdir₁ with hold | ⟨node, t, hnode, hlazy⟩
      · exact Or.inl hold
      · exact Or.inr ⟨[], r :: requests, node, t, rfl, hnode, hlazy⟩
    · exact Or.inr ⟨r :: before, after, node, t, rfl, hnode, hlazy⟩

/-! ## Reading a directory -/

/-- An entry of a directory as it is returned. -/
abbrev Entry := INodeNo × FileType × String

/-- A directory is read page by page. Each page continues after the entries that were returned
before, other requests may come in between, and a page that failed is asked for again. -/
def readPages (env : MountEnv) (ino : INodeNo) : MapacheFS → List Entry →
    List (List (Request × (ID → Option Bytes)) × (ID → Option Bytes) × Nat) → List Entry × MapacheFS
  | fs, got, [] => (got, fs)
  | fs, got, (between, loadBlob, page) :: pages =>
    match (fs.run env between).readdir env loadBlob ino got.length page with
    | (.entries entries, fs) => readPages env ino fs (got ++ entries) pages
    | (_, fs) => readPages env ino fs got pages

/-- The node is not a lazy directory, so it does not change any more. -/
def NotLazy (fs : MapacheFS) (ino : INodeNo) : Prop :=
  ∃ node, fs.stash.nodes.lookup ino = some node ∧ ∀ t, node.kind ≠ .lazyDir t

/-- What was returned of a directory is the front of its listing. -/
structure Reading (env : MountEnv) (plain : ID → Bytes) (IsTree : ID → Prop) (ino : INodeNo)
    (got : List Entry) (fs : MapacheFS) : Prop where
  view : fs.View env plain IsTree
  listing : got <+: fs.stash.readDir ino 0
  started : got ≠ [] → fs.NotLazy ino

theorem readDir_eq_drop (s : Stash) (ino : INodeNo) (offset : Nat) :
    s.readDir ino offset = (s.readDir ino 0).drop offset := by
  unfold Stash.readDir
  split
  · rw [List.drop_nil]
  · rw [List.drop_zero]

theorem NotLazy.readDir_eq (hwf : fs.stash.Wf) (hextends : fs.stash.Extends fs'.stash)
    (h : fs.NotLazy ino) (offset : Nat) :
    fs'.NotLazy ino ∧ fs'.stash.readDir ino offset = fs.stash.readDir ino offset := by
  obtain ⟨node, hnode, hloaded⟩ := h
  obtain ⟨node', hnode', hup⟩ := hextends.nodes ino node hnode
  have hkind : node'.kind = node.kind := hup.kind.resolve_right fun ⟨t, _, hlazy, _⟩ => hloaded t hlazy
  refine ⟨⟨node', hnode', fun t => hkind ▸ hloaded t⟩, ?_⟩
  rw [Stash.readDir, Stash.readDir, hnode, hnode']
  dsimp only
  rw [hextends.entries hwf hnode hnode' hloaded]

theorem Reading.of_extends {got : List Entry} (h : fs.Reading env plain IsTree ino got)
    (hview : fs'.View env plain IsTree) (hextends : fs.stash.Extends fs'.stash) :
    fs'.Reading env plain IsTree ino got := by
  by_cases hempty : got = []
  · subst hempty
    exact ⟨hview, List.nil_prefix, fun hne => absurd rfl hne⟩
  · obtain ⟨hnotLazy, hsame⟩ := (h.started hempty).readDir_eq h.view.wf hextends 0
    exact ⟨hview, hsame ▸ h.listing, fun _ => hnotLazy⟩

/-- What a page has is what follows in the listing. -/
theorem readdir_spec (hnames : DistinctNames env.codec plain IsTree)
    (hsound : SoundLoader plain loadBlob) (h : fs.View env plain IsTree) {offset page : Nat}
    {reply : Reply} (heq : fs.readdir env loadBlob ino offset page = (reply, fs')) :
    fs'.View env plain IsTree ∧ fs.stash.Extends fs'.stash ∧
      (∀ entries, reply = .entries entries →
        entries = (fs'.stash.readDir ino offset).take page ∧
        ∀ node t, fs'.stash.nodes.lookup ino = some node → node.kind ≠ .lazyDir t) := by
  unfold readdir at heq
  split at heq
  · rename_i hload
    cases heq
    obtain ⟨hview, hstep, -⟩ := ensureLoaded_spec hnames hsound h hload
    exact ⟨hview, hstep.extended, nofun⟩
  · rename_i hload
    cases heq
    obtain ⟨hview, hstep, hloaded⟩ := ensureLoaded_spec hnames hsound h hload
    refine ⟨hview, hstep.extended, fun entries hentries => ?_⟩
    cases hentries
    exact ⟨rfl, hloaded rfl⟩

/-- **A page continues the listing.** -/
theorem Reading.page (hnames : DistinctNames env.codec plain IsTree)
    (hsound : SoundLoader plain loadBlob) {got entries : List Entry} {page : Nat}
    (h : fs.Reading env plain IsTree ino got)
    (heq : fs.readdir env loadBlob ino got.length page = (.entries entries, fs')) :
    fs'.Reading env plain IsTree ino (got ++ entries) ∧
      (entries = [] → 0 < page → got = fs'.stash.readDir ino 0) := by
  obtain ⟨hview, hextends, hentries⟩ := readdir_spec hnames hsound h.view heq
  obtain ⟨hpage, hloaded⟩ := hentries entries rfl
  have hreading := h.of_extends hview hextends
  rw [readDir_eq_drop] at hpage
  obtain ⟨rest, hrest⟩ := hreading.listing
  rw [← hrest, List.drop_left] at hpage
  refine ⟨⟨hview, ?_, fun hne => ?_⟩, fun hempty hpos => ?_⟩
  · rw [← hrest, hpage]
    exact (List.prefix_append_right_inj got).mpr (List.take_prefix page rest)
  · cases hnode : fs'.stash.nodes.lookup ino with
    | some node => exact ⟨node, hnode, fun t => hloaded node t hnode⟩
    | none =>
      have hnone : fs'.stash.readDir ino 0 = [] := by rw [Stash.readDir, hnode]
      rw [hnone] at hrest
      obtain ⟨rfl, rfl⟩ := List.append_eq_nil_iff.mp hrest
      rw [hpage, List.take_nil] at hne
      exact absurd rfl hne
  · have hnothing : rest = [] := by
      rcases List.take_eq_nil_iff.mp (hpage.symm.trans hempty) with hzero | hnil
      · omega
      · exact hnil
    rw [← hrest, hnothing, List.append_nil]

/-- **Reading page by page** returns the front of the listing. -/
theorem readPages_spec (hnames : DistinctNames env.codec plain IsTree) {got : List Entry}
    {pages : List (List (Request × (ID → Option Bytes)) × (ID → Option Bytes) × Nat)}
    (h : fs.Reading env plain IsTree ino got)
    (hpages : ∀ p ∈ pages, Requests plain p.1 ∧ SoundLoader plain p.2.1) :
    (readPages env ino fs got pages).2.Reading env plain IsTree ino
      (readPages env ino fs got pages).1 ∧
      fs.stash.Extends (readPages env ino fs got pages).2.stash := by
  induction pages generalizing fs got with
  | nil => exact ⟨h, .refl _⟩
  | cons p pages ih =>
    obtain ⟨between, loadBlob, page⟩ := p
    rw [List.forall_mem_cons] at hpages
    obtain ⟨hview, hextends⟩ := run_spec hnames h.view hpages.1.1
    have hbetween := h.of_extends hview hextends
    rw [readPages]
    split
    · rename_i entries fs₁ heq
      obtain ⟨-, hextends₁, -⟩ := readdir_spec hnames hpages.1.2 hview heq
      obtain ⟨hreading, hextends₂⟩ := ih (hbetween.page hnames hpages.1.2 heq).1 hpages.2
      exact ⟨hreading, (hextends.trans hextends₁).trans hextends₂⟩
    · rename_i reply fs₁ hreply heq
      obtain ⟨hview₁, hextends₁, -⟩ := readdir_spec hnames hpages.1.2 hview heq
      obtain ⟨hreading, hextends₂⟩ := ih (hbetween.of_extends hview₁ hextends₁) hpages.2
      exact ⟨hreading, (hextends.trans hextends₁).trans hextends₂⟩

/-- The requests of a reading, one after the other. -/
theorem readPages_run (got : List Entry)
    {pages : List (List (Request × (ID → Option Bytes)) × (ID → Option Bytes) × Nat)}
    (hpages : ∀ p ∈ pages, Requests plain p.1 ∧ SoundLoader plain p.2.1) :
    ∃ requests, Requests plain requests ∧ (readPages env ino fs got pages).2 = fs.run env requests := by
  induction pages generalizing fs got with
  | nil => exact ⟨[], List.forall_mem_nil _, rfl⟩
  | cons p pages ih =>
    obtain ⟨between, loadBlob, page⟩ := p
    rw [List.forall_mem_cons] at hpages
    have hrun : ∀ {reply : Reply} {fs₁ : MapacheFS} {rest : List (Request × (ID → Option Bytes))},
        (fs.run env between).readdir env loadBlob ino got.length page = (reply, fs₁) →
        Requests plain rest →
        Requests plain (between ++ (.readdir ino got.length page, loadBlob) :: rest) ∧
          fs₁.run env rest =
            fs.run env (between ++ (.readdir ino got.length page, loadBlob) :: rest) := by
      intro reply fs₁ rest heq hrest
      constructor
      · intro r hr
        rcases List.mem_append.mp hr with hr | hr
        · exact hpages.1.1 r hr
        · rcases List.mem_cons.mp hr with rfl | hr
          · exact ⟨trivial, hpages.1.2⟩
          · exact hrest r hr
      · rw [run, run, List.foldl_append, List.foldl_cons]
        change _ = List.foldl _ ((fs.run env between).readdir env loadBlob ino got.length page).2 rest
        rw [heq]
    rw [readPages]
    split
    · rename_i entries fs₁ heq
      obtain ⟨rest, hrest, hfs⟩ := ih (got ++ entries) hpages.2
      exact ⟨_, (hrun heq hrest).1, hfs.trans (hrun heq hrest).2⟩
    · rename_i reply fs₁ hreply heq
      obtain ⟨rest, hrest, hfs⟩ := ih got hpages.2
      exact ⟨_, (hrun heq hrest).1, hfs.trans (hrun heq hrest).2⟩

/-- The listing of a directory that is loaded. -/
theorem View.listing {node : FsNode} {children : Table String INodeNo}
    (h : fs.View env plain IsTree) (hnode : fs.stash.nodes.lookup ino = some node)
    (hdir : node.kind = .dir children) :
    fs.stash.readDir ino 0 = (ino, node.attr.kind, ".") :: (node.parent, .directory, "..") ::
      fs.stash.childEntries children ∧
    ∀ child fileType name, (child, fileType, name) ∈ fs.stash.childEntries children ↔
      fs.stash.pathCache.lookup (ino, name) = some child ∧
        (fs.stash.getAttr child).map FileAttr.kind = some fileType := by
  constructor
  · rw [Stash.readDir, hnode]
    dsimp only
    rw [Stash.entries, hdir, List.drop_zero, (h.wf.inode ino node hnode).1]
  · intro child fileType name
    rw [Stash.mem_childEntries, h.wf.agree, Stash.childrenOf_dir hnode hdir, Stash.getAttr,
      Option.map_map, Option.map_eq_some_iff]
    constructor
    · rintro ⟨fsNode, hchild, hlookup, hkind⟩
      exact ⟨hchild, fsNode, hlookup, hkind⟩
    · rintro ⟨hchild, fsNode, hlookup, hkind⟩
      exact ⟨fsNode, hchild, hlookup, hkind⟩

/-- What a reading has when it is complete: `.`, `..` and every child once. -/
def ReadAll (ino : INodeNo) (node : FsNode) (got : List Entry) (fs : MapacheFS) : Prop :=
  ∃ children : List Entry,
    got = (ino, node.attr.kind, ".") :: (node.parent, .directory, "..") :: children ∧
    (children.map fun entry => entry.2.2).Nodup ∧
    ∀ child fileType name, (child, fileType, name) ∈ children ↔
      fs.stash.pathCache.lookup (ino, name) = some child ∧
        (fs.stash.getAttr child).map FileAttr.kind = some fileType

theorem View.readAll {node node' : FsNode} {children : Table String INodeNo}
    (h : fs.View env plain IsTree) (hnode : fs.stash.nodes.lookup ino = some node')
    (hdir : node'.kind = .dir children) (hup : node.Upgrades node') :
    ReadAll ino node (fs.stash.readDir ino 0) fs := by
  obtain ⟨hlisting, hchildren⟩ := h.listing hnode hdir
  refine ⟨fs.stash.childEntries children, ?_, Stash.childEntries_names_nodup, hchildren⟩
  rw [hlisting, hup.attr_kind, hup.parent]

/-- **What was returned when nothing is left** is `.`, `..` and every child once. -/
theorem readPages_all (hnames : DistinctNames env.codec plain IsTree) {node : FsNode} {page : Nat}
    {pages : List (List (Request × (ID → Option Bytes)) × (ID → Option Bytes) × Nat)}
    (h : fs.View env plain IsTree) (hnode : fs.stash.nodes.lookup ino = some node)
    (hdir : (∃ children, node.kind = .dir children) ∨ ∃ t, node.kind = .lazyDir t)
    (hpages : ∀ p ∈ pages, Requests plain p.1 ∧ SoundLoader plain p.2.1)
    (hsound : SoundLoader plain loadBlob) (hpage : 0 < page)
    (hend : (readPages env ino fs [] pages).2.readdir env loadBlob ino
      (readPages env ino fs [] pages).1.length page = (.entries [], fs')) :
    ReadAll ino node (readPages env ino fs [] pages).1 fs' := by
  have hstart : fs.Reading env plain IsTree ino [] := ⟨h, List.nil_prefix, fun hne => absurd rfl hne⟩
  obtain ⟨hreading, hextends⟩ := readPages_spec hnames hstart hpages
  have hall := (hreading.page hnames hsound hend).2 rfl hpage
  obtain ⟨hview, hextends', hloaded⟩ := readdir_spec hnames hsound hreading.view hend
  obtain ⟨node', hnode', hup⟩ := (hextends.trans hextends').nodes ino node hnode
  obtain ⟨children, hdir'⟩ := hup.exists_dir hdir ((hloaded [] rfl).2 node' · hnode')
  rw [hall]
  exact hview.readAll hnode' hdir' hup

/-- Every page that is answered brings the reading on, until it has the whole listing. -/
theorem Reading.progress (hnames : DistinctNames env.codec plain IsTree) {node : FsNode}
    {got : List Entry}
    {pages : List (List (Request × (ID → Option Bytes)) × (ID → Option Bytes) × Nat)}
    (h : fs.Reading env plain IsTree ino got) (hnode : fs.stash.nodes.lookup ino = some node)
    (hpages : ∀ p ∈ pages, Requests plain p.1 ∧ SoundLoader plain p.2.1)
    (hanswered : ∀ p ∈ pages, 0 < p.2.2 ∧ TreeLoads env node p.2.1) :
    got <+: (readPages env ino fs got pages).1 ∧
      (got.length + pages.length ≤ (readPages env ino fs got pages).1.length ∨
        (readPages env ino fs got pages).1 =
          (readPages env ino fs got pages).2.stash.readDir ino 0) ∧
      (pages ≠ [] → (readPages env ino fs got pages).2.NotLazy ino) := by
  -- once the directory is loaded its listing stays the same
  induction pages generalizing fs got node with
  | nil => exact ⟨List.prefix_refl _, Or.inl (Nat.le_refl _), fun hne => absurd rfl hne⟩
  | cons p pages ih =>
    obtain ⟨between, loadBlob, page⟩ := p
    rw [List.forall_mem_cons] at hpages hanswered
    obtain ⟨⟨hbetween, hsound⟩, hrest⟩ := hpages
    obtain ⟨⟨hpos, hloads⟩, hanswered⟩ := hanswered
    obtain ⟨hview, hextends⟩ := run_spec hnames h.view hbetween
    obtain ⟨node₁, hnode₁, hup₁⟩ := hextends.nodes ino node hnode
    obtain ⟨entries, fs₁, heq⟩ := readdir_answers hnode₁ (hloads.of_upgrades hup₁) got.length page
    obtain ⟨hreading, hlast⟩ := (h.of_extends hview hextends).page hnames hsound heq
    obtain ⟨-, hextends₁, hentries⟩ := readdir_spec hnames hsound hview heq
    obtain ⟨node₂, hnode₂, hup₂⟩ := hextends₁.nodes ino node₁ hnode₁
    have hnotLazy : fs₁.NotLazy ino := ⟨node₂, hnode₂, ((hentries entries rfl).2 node₂ · hnode₂)⟩
    obtain ⟨hpre, hmore, -⟩ := ih hreading hnode₂ hrest fun p hp =>
      ⟨(hanswered p hp).1, ((hanswered p hp).2.of_upgrades hup₁).of_upgrades hup₂⟩
    obtain ⟨hfinal, hextends₂⟩ := readPages_spec hnames hreading hrest
    obtain ⟨hnotLazy', hsame⟩ := hnotLazy.readDir_eq hreading.view.wf hextends₂ 0
    rw [readPages, heq]
    dsimp only
    refine ⟨(List.prefix_append got entries).trans hpre, ?_, fun _ => hnotLazy'⟩
    by_cases hempty : entries = []
    · -- an empty page comes only at the end, and nothing follows
      right
      subst hempty
      rw [List.append_nil] at hpre hfinal hsame ⊢
      have hwhole := hlast rfl hpos
      rw [hsame, ← hwhole]
      refine (List.IsPrefix.eq_of_length_le hpre ?_).symm
      have hle := hfinal.listing.length_le
      rwa [hsame, ← hwhole] at hle
    · refine hmore.imp (fun hlen => ?_) id
      have hone := List.length_pos_of_ne_nil hempty
      rw [List.length_append] at hlen
      rw [List.length_cons]
      omega

/-- **A reading comes to its end**: after so many pages it is complete. -/
theorem exists_readAll (hnames : DistinctNames env.codec plain IsTree) {node : FsNode}
    (h : fs.View env plain IsTree) (hnode : fs.stash.nodes.lookup ino = some node)
    (hdir : (∃ children, node.kind = .dir children) ∨ ∃ t, node.kind = .lazyDir t) :
    ∃ count, ∀ pages : List (List (Request × (ID → Option Bytes)) × (ID → Option Bytes) × Nat),
      (∀ p ∈ pages, Requests plain p.1 ∧ SoundLoader plain p.2.1) →
      (∀ p ∈ pages, 0 < p.2.2 ∧ TreeLoads env node p.2.1) → count ≤ pages.length →
      ReadAll ino node (readPages env ino fs [] pages).1 (readPages env ino fs [] pages).2 := by
  have hstart : fs.Reading env plain IsTree ino [] := ⟨h, List.nil_prefix, fun hne => absurd rfl hne⟩
  -- the listing is no longer than this, whenever the directory is loaded
  obtain ⟨count, hcount⟩ : ∃ count, ∀ requests, Requests plain requests →
      (fs.run env requests).NotLazy ino →
        ((fs.run env requests).stash.readDir ino 0).length ≤ count := by
    rcases hdir with ⟨children, hdir⟩ | ⟨t, hlazy⟩
    · refine ⟨(fs.stash.readDir ino 0).length, fun requests hrequests _ => ?_⟩
      have hnotLazy : fs.NotLazy ino := ⟨node, hnode, fun t hlazy => by
        rw [hdir] at hlazy
        cases hlazy⟩
      obtain ⟨-, hextends⟩ := run_spec hnames h hrequests
      exact le_of_eq (congrArg List.length (hnotLazy.readDir_eq h.wf hextends 0).2)
    · refine ⟨(treeNodes env.codec plain t).length + 2, fun requests hrequests hnotLazy => ?_⟩
      obtain ⟨hview, hextends⟩ := run_spec hnames h hrequests
      obtain ⟨node', hnode', hup⟩ := hextends.nodes ino node hnode
      obtain ⟨node'', hnode'', hloaded⟩ := hnotLazy
      cases hnode'.symm.trans hnode''
      obtain ⟨children, hdir'⟩ := hup.exists_dir (Or.inr ⟨t, hlazy⟩) hloaded
      have hshows := run_shows hnames h hrequests hnode hlazy hnode' hdir'
      obtain ⟨hlisting, -⟩ := hview.listing hnode' hdir'
      rw [hlisting, List.length_cons, List.length_cons]
      -- every child is a name of the tree
      have hsub : ((fs.run env requests).stash.childEntries children).map (fun entry => entry.2.2) ⊆
          (treeNodes env.codec plain t).map Node.name := by
        intro name hname
        obtain ⟨entry, hentry, rfl⟩ := List.mem_map.mp hname
        obtain ⟨fsNode, hchild, -⟩ := Stash.mem_childEntries.mp hentry
        rw [← Stash.childrenOf_dir hnode' hdir'] at hchild
        obtain ⟨n, hmem, hn, -⟩ := hshows.listed _ _ hchild
        exact hn ▸ List.mem_map_of_mem hmem
      have hlen := (List.subperm_of_subset Stash.childEntries_names_nodup hsub).length_le
      rw [List.length_map, List.length_map] at hlen
      omega
  refine ⟨count + 1, fun pages hpages hanswered hlen => ?_⟩
  obtain ⟨requests, hrequests, hrun⟩ : ∃ requests, Requests plain requests ∧
      (readPages env ino fs [] pages).2 = fs.run env requests := readPages_run [] hpages
  obtain ⟨-, hprogress, hnotLazy⟩ := hstart.progress hnames hnode hpages hanswered
  obtain ⟨hreading, hextends⟩ := readPages_spec hnames hstart hpages
  have hloaded := hnotLazy (List.ne_nil_of_length_pos (by omega))
  have hbound := hcount requests hrequests (hrun ▸ hloaded)
  rw [← hrun] at hbound
  have hwhole : (readPages env ino fs [] pages).1 =
      (readPages env ino fs [] pages).2.stash.readDir ino 0 := by
    rcases hprogress with hlong | hwhole
    · have hle := hreading.listing.length_le
      rw [List.length_nil] at hlong
      omega
    · exact hwhole
  obtain ⟨node', hnode', hup⟩ := hextends.nodes ino node hnode
  obtain ⟨node'', hnode'', hnotLazy'⟩ := hloaded
  cases hnode'.symm.trans hnode''
  obtain ⟨children, hdir'⟩ := hup.exists_dir hdir hnotLazy'
  rw [hwhole]
  exact hreading.view.readAll hnode' hdir' hup

theorem init_treeCache (fs : MapacheFS) (snapshots : List MountedSnapshot) :
    (fs.init env snapshots).treeCache = fs.treeCache := by
  unfold init
  split
  · rfl
  · split
    · dsimp only
      split <;> rfl
    · rfl

/-- **The mounted file system is a faithful view.** `init` is the first request. At every moment the
numbers and bindings are consistent; later on no binding has changed, and a lazy directory that was
loaded in between shows its tree. Every loaded directory is one of those or was made by `init`. A
directory is read page by page: each page is answered where its tree loads, a reading whose last
page is empty is complete, and after so many answered pages it is. -/
theorem mount_faithful {repo : Bool} {archiveRootTree : Option ID} {metadataOnly : Bool}
    {dataCacheSize : Nat} {createdTime : Int} {snapshots : List MountedSnapshot}
    {before after : List (Request × (ID → Option Bytes))}
    (hnames : ∀ t nodes, Mounted env.codec plain archiveRootTree snapshots t →
      env.codec.fromSlice (plain t) = some nodes → (nodes.map Node.name).Nodup)
    (hbefore : Requests plain before) (hafter : Requests plain after) :
    let start := (mount repo archiveRootTree metadataOnly dataCacheSize createdTime).init env snapshots
    let now := start.run env before
    let s := now.stash
    let s' := (start.run env (before ++ after)).stash
    s.Wf ∧
    (∀ key ino, s.pathCache.lookup key = some ino → s'.pathCache.lookup key = some ino) ∧
    (∀ ino node t node' children, s.nodes.lookup ino = some node → node.kind = .lazyDir t →
      s'.nodes.lookup ino = some node' → node'.kind = .dir children →
      s'.Shows env.symlinkTarget ino node.attr.crtime (treeNodes env.codec plain t)) ∧
    (∀ ino, s.IsDir ino → start.stash.IsDir ino ∨ ∃ earlier rest node t, before = earlier ++ rest ∧
      (start.run env earlier).stash.nodes.lookup ino = some node ∧ node.kind = .lazyDir t) ∧
    (∀ ino node loadBlob offset page, s.nodes.lookup ino = some node → TreeLoads env node loadBlob →
      ∃ entries fs', now.readdir env loadBlob ino offset page = (.entries entries, fs')) ∧
    (∀ ino node, s.nodes.lookup ino = some node →
      (∃ children, node.kind = .dir children) ∨ (∃ t, node.kind = .lazyDir t) →
      (∀ pages loadBlob page fs', (∀ p ∈ pages, Requests plain p.1 ∧ SoundLoader plain p.2.1) →
        SoundLoader plain loadBlob → 0 < page →
        (readPages env ino now [] pages).2.readdir env loadBlob ino
          (readPages env ino now [] pages).1.length page = (.entries [], fs') →
        ReadAll ino node (readPages env ino now [] pages).1 fs') ∧
      ∃ count, ∀ pages, (∀ p ∈ pages, Requests plain p.1 ∧ SoundLoader plain p.2.1) →
        (∀ p ∈ pages, 0 < p.2.2 ∧ TreeLoads env node p.2.1) → count ≤ pages.length →
        ReadAll ino node (readPages env ino now [] pages).1 (readPages env ino now [] pages).2) := by
  intro start now s s'
  have hdistinct : DistinctNames env.codec plain
      (Mounted env.codec plain archiveRootTree snapshots) := by
    constructor
    · intro t ht
      rw [treeNodes]
      cases htree : env.codec.fromSlice (plain t) with
      | none => exact List.nodup_nil
      | some nodes => exact hnames t nodes ht htree
    · rintro t node t' ⟨root, hroot, hbelow⟩ hmem htree
      rw [treeNodes] at hmem
      cases hnodes : env.codec.fromSlice (plain t) with
      | none =>
        rw [hnodes] at hmem
        cases hmem
      | some nodes =>
        rw [hnodes] at hmem
        exact ⟨root, hroot, hbelow.sub ⟨nodes, hnodes, hmem⟩ htree⟩
  -- what `init` builds is a view of the trees, and every request keeps it one
  have hbuilt := init_built env plain repo archiveRootTree metadataOnly dataCacheSize createdTime
    snapshots
  have hcached : start.treeCache.Holds (treeNodes env.codec plain) := by
    change (init env snapshots _).treeCache.Holds _
    rw [init_treeCache]
    exact Lru.holds_new
  have hstart : start.View env plain (Mounted env.codec plain archiveRootTree snapshots) :=
    ⟨hbuilt.wf, hbuilt.lazyDir, hcached⟩
  obtain ⟨hview, -⟩ := run_spec hdistinct hstart hbefore
  have hrun : start.run env (before ++ after) = (start.run env before).run env after :=
    List.foldl_append
  refine ⟨hview.wf, ?_, ?_, ?_, ?_, ?_⟩
  · intro key ino hkey
    change (start.run env (before ++ after)).stash.pathCache.lookup key = some ino
    rw [hrun]
    exact (run_spec hdistinct hview hafter).2.cached key ino hkey
  · intro ino node t node' children hnode hlazy hnode' hdir
    change (start.run env (before ++ after)).stash.Shows _ _ _ _
    change (start.run env (before ++ after)).stash.nodes.lookup ino = some node' at hnode'
    rw [hrun] at hnode' ⊢
    exact run_shows hdistinct hview hafter hnode hlazy hnode' hdir
  · intro ino hdir
    exact run_dir hdistinct hstart hbefore hdir
  · intro ino node loadBlob offset page hnode hloads
    exact readdir_answers hnode hloads offset page
  · intro ino node hnode hdir
    refine ⟨?_, exists_readAll hdistinct hview hnode hdir⟩
    intro pages loadBlob page fs' hpages hsound hpage hend
    exact readPages_all hdistinct hview hnode hdir hpages hsound hpage hend

end Requests

/-- A bundle with one file, whose name is looked up before its directory is read, two entries at a
time and to the end. -/
theorem mount_faithful_sample :
    let now := ((mount false (some 1) false 1 0).init sampleMountEnv []).run sampleMountEnv
      [(.lookup 1 "f", some ∘ sampleContent)]
    let pages := [([], some ∘ sampleContent, 2), ([], some ∘ sampleContent, 2)]
    (((mount false (some 1) false 1 0).init sampleMountEnv []).run sampleMountEnv
      ([(.lookup 1 "f", some ∘ sampleContent)] ++
        [(.readdir 1 0 5, some ∘ sampleContent)])).stash.pathCache.lookup (1, "f") = some 2 ∧
    (readPages sampleMountEnv 1 now [] pages).1 =
      [(1, .directory, "."), (1, .directory, ".."), (2, .regularFile, "f")] ∧
    ∃ node fs', now.stash.nodes.lookup 1 = some node ∧
      ReadAll 1 node (readPages sampleMountEnv 1 now [] pages).1 fs' := by
  have hnames : ∀ t nodes, Mounted sampleMountEnv.codec sampleContent (some 1) [] t →
      sampleMountEnv.codec.fromSlice (sampleContent t) = some nodes →
      (nodes.map Node.name).Nodup := by
    rintro t nodes - hnodes
    simp only [sampleMountEnv, TreeCodec.single] at hnodes
    split at hnodes
    · cases hnodes
      simp
    · cases hnodes
  have hbefore : Requests sampleContent [(.lookup 1 "f", some ∘ sampleContent)] := by
    simp [Requests, Request.AfterInit, soundLoader_some]
  have hafter : Requests sampleContent [(.readdir 1 0 5, some ∘ sampleContent)] := by
    simp [Requests, Request.AfterInit, soundLoader_some]
  obtain ⟨-, hbound, -, -, -, hread⟩ :=
    @mount_faithful sampleMountEnv sampleContent false (some 1) false 1 0 [] _ _ hnames hbefore hafter
  refine ⟨hbound (1, "f") 2 rfl, rfl, ?_⟩
  obtain ⟨hcomplete, -⟩ := hread 1 _ rfl (Or.inl ⟨_, rfl⟩)
  refine ⟨_, _, rfl, hcomplete _ (some ∘ sampleContent) 1 _ ?_ (soundLoader_some _) (by decide) rfl⟩
  simp [Requests, soundLoader_some]

end MapacheFS

end Mapache
