import Mapache.Archiver.TreeSerializer
import Mapache.Repository.SaveBlob

/-!
# The archiver

`archiver::snapshot` over the pack pipeline of a client. Files that are new or changed are chunked
by a pool of threads (`ρ`), each of which saves its chunks one after the other; an unchanged file
takes over the blobs of its node in the parent snapshot; the tree serializer saves the directories.
The callers of the pipeline are the threads of the pool and, as `none`, the serializer.

What the file system contains is left open: the stream may emit any item at any time, and a file may
be cut into any chunks. The order in which the parent's trees are streamed is left open as well.

`Archiver.Grounded` is the invariant: every ID in a node that the archiver has in hand is `Safe`,
and so is the closure of every tree ID. It is stated for any property `Safe` of IDs; what the
pipeline knows or an index file lists is safe.
-/

set_option autoImplicit false

namespace Mapache

open Lib

/-- A file on its way through a thread of the pool, with the IDs of the chunks it has saved. -/
structure Job where
  path : Path
  item : StreamNode
  ids : List ID
  /-- Saving a chunk returned an error. -/
  failed : Bool

/-- Where the tree serializer stands. -/
inductive SerializerPhase where
  /-- About to receive an item. -/
  | waiting
  /-- In `finalize_if_complete`. -/
  | finalizing (path : Path)
  /-- About to save the tree of a complete directory. -/
  | saving (path : Path) (tree : PendingTree)
  /-- In `save_blob` with the nodes of the directory. -/
  | storing (path : Path) (tree : PendingTree) (nodes : List Node)
  /-- An error has ended the loop. -/
  | stopped

/-- The state of the archiver. -/
structure Archiver (ρ : Type) where
  /-- The trees of the parent snapshot that its stream may load. -/
  prevTrees : List ID
  /-- The nodes of the parent snapshot that its stream has emitted. -/
  prevNodes : List Node
  jobs : ρ → Option Job
  /-- The channel to the serializer. -/
  processed : List (Path × StreamNode)
  serializer : TreeSerializer
  phase : SerializerPhase

/-- An unchanged item has the metadata of its node in the parent snapshot, and a file its blobs. -/
def StreamNode.unchanged (prev : Node) (item : StreamNode) : StreamNode :=
  { item with
    node :=
      { item.node with
        metadata := prev.metadata
        blobs := if item.node.isFile then prev.blobs else item.node.blobs } }

namespace Archiver

variable {ρ : Type}

/-- The archiver at its start. -/
def init (parent : Option Snapshot) (root : Path) (counts : Nat × List (Path × Nat)) : Archiver ρ where
  prevTrees := (parent.map Snapshot.tree).toList
  prevNodes := []
  jobs := fun _ => none
  processed := []
  serializer := .new root counts
  phase := .waiting

/-- Hand an item to the serializer. -/
def emit (a : Archiver ρ) (path : Path) (item : StreamNode) : Archiver ρ :=
  { a with processed := a.processed ++ [(path, item)] }

/-- A thread of the pool takes note of the outcome of its call. -/
def noteChunk [DecidableEq ρ] (a : Archiver ρ) (k : ρ) : CallOutcome → Archiver ρ
  | .running => a
  | .ok id =>
    { a with
      jobs := Function.update a.jobs k
        ((a.jobs k).map fun job => { job with ids := job.ids ++ [id] }) }
  | .err =>
    { a with
      jobs := Function.update a.jobs k ((a.jobs k).map fun job => { job with failed := true }) }

/-- The serializer takes note of the outcome of its call. -/
def noteTree (a : Archiver ρ) (o : CallOutcome) : Archiver ρ :=
  match a.phase, o with
  | .storing path tree _, .ok id =>
    match a.serializer.resume path tree id with
    | some (ts, some next) => { a with serializer := ts, phase := .finalizing next }
    | some (ts, none) => { a with serializer := ts, phase := .waiting }
    | none => { a with phase := .stopped }
  | _, .err => { a with phase := .stopped }
  | _, _ => a

/-- A step of the archiver. -/
inductive Step {n : Nat} [DecidableEq ρ] (env : Env) (codec : TreeCodec) (b : Backend) :
    Archiver ρ → Pipe (Option ρ) n → Option (PipeEvent (Option ρ)) →
    Archiver ρ → Pipe (Option ρ) n → Prop where
  /-- The stream of the parent snapshot loads a tree. -/
  | loadPrev {a : Archiver ρ} {p : Pipe (Option ρ) n} {t : ID} {bytes : Bytes} {nodes : List Node} :
      t ∈ a.prevTrees → loadBlob env b p.index t = some bytes → codec.fromSlice bytes = some nodes →
      Step env codec b a p none
        { a with
          prevTrees := a.prevTrees ++ nodes.filterMap Node.tree
          prevNodes := a.prevNodes ++ nodes } p
  | unchanged {a : Archiver ρ} {p : Pipe (Option ρ) n} {path : Path} {item : StreamNode}
    {prev : Node} :
      item.node.Bare → prev ∈ a.prevNodes → prev.isModifiedHint item.node = false →
      Step env codec b a p none (a.emit path (item.unchanged prev)) p
  /-- A new or changed item that is no file. -/
  | inline {a : Archiver ρ} {p : Pipe (Option ρ) n} {path : Path} {item : StreamNode} :
      item.node.Bare → item.node.isFile = false →
      Step env codec b a p none (a.emit path item) p
  | begin {a : Archiver ρ} {p : Pipe (Option ρ) n} {k : ρ} {path : Path} {item : StreamNode} :
      a.jobs k = none → item.node.Bare → item.node.isFile = true →
      Step env codec b a p none
        { a with jobs := Function.update a.jobs k (some ⟨path, item, [], false⟩) } p
  | chunk {a : Archiver ρ} {p p' : Pipe (Option ρ) n} {k : ρ} {job : Job} {data : Bytes} :
      a.jobs k = some job → job.failed = false →
      Pipe.CallStep env p (.call (some k) .data data .calculateID) p' →
      Step env codec b a p (some (.call (some k) .data data .calculateID)) a p'
  | caller {a : Archiver ρ} {p p' : Pipe (Option ρ) n} {k : ρ} :
      Pipe.CallStep env p (.caller (some k)) p' →
      Step env codec b a p (some (.caller (some k)))
        (a.noteChunk k ((p.callers (some k)).outcome (p'.callers (some k)))) p'
  | finish {a : Archiver ρ} {p : Pipe (Option ρ) n} {k : ρ} {job : Job} :
      a.jobs k = some job → job.failed = false → p.callers (some k) = .idle →
      Step env codec b a p none
        (emit { a with jobs := Function.update a.jobs k none } job.path
          { job.item with node := { job.item.node with blobs := some job.ids } }) p
  /-- The file cannot be read or saved: its node goes on without blobs. -/
  | skip {a : Archiver ρ} {p : Pipe (Option ρ) n} {k : ρ} {job : Job} :
      a.jobs k = some job → p.callers (some k) = .idle →
      Step env codec b a p none
        (emit { a with jobs := Function.update a.jobs k none } job.path job.item) p
  /-- A failure of the standard input, or nobody takes the result any more. -/
  | drop {a : Archiver ρ} {p : Pipe (Option ρ) n} {k : ρ} : p.callers (some k) = .idle →
      Step env codec b a p none { a with jobs := Function.update a.jobs k none } p
  | receive {a : Archiver ρ} {p : Pipe (Option ρ) n} {path next : Path} {item : StreamNode}
      {rest : List (Path × StreamNode)} {ts : TreeSerializer} :
      a.phase = .waiting → a.processed = (path, item) :: rest →
      a.serializer.handleProcessedItem path item = some (ts, next) →
      Step env codec b a p none
        { a with processed := rest, serializer := ts, phase := .finalizing next } p
  | receiveFail {a : Archiver ρ} {p : Pipe (Option ρ) n} {path : Path} {item : StreamNode}
      {rest : List (Path × StreamNode)} :
      a.phase = .waiting → a.processed = (path, item) :: rest →
      a.serializer.handleProcessedItem path item = none →
      Step env codec b a p none { a with processed := rest, phase := .stopped } p
  | incomplete {a : Archiver ρ} {p : Pipe (Option ρ) n} {path : Path} :
      a.phase = .finalizing path → a.serializer.takeComplete path = none →
      Step env codec b a p none { a with phase := .waiting } p
  | complete {a : Archiver ρ} {p : Pipe (Option ρ) n} {path : Path} {ts : TreeSerializer}
      {tree : PendingTree} :
      a.phase = .finalizing path → a.serializer.takeComplete path = some (ts, tree) →
      Step env codec b a p none
        { a with
          serializer := ts
          phase := if tree.isValid then .saving path tree else .stopped } p
  /-- `Tree::save_to_store` sorts the nodes, in any order among equal names. -/
  | save {a : Archiver ρ} {p p' : Pipe (Option ρ) n} {path : Path} {tree : PendingTree}
      {nodes : List Node} {bytes : Bytes} :
      a.phase = .saving path tree → nodes.Perm tree.children →
      nodes.Pairwise (fun x y => x.name ≤ y.name) → codec.toVec nodes = some bytes →
      Pipe.CallStep env p (.call none .tree bytes .calculateID) p' →
      Step env codec b a p (some (.call none .tree bytes .calculateID))
        { a with phase := .storing path tree nodes } p'
  | saveFail {a : Archiver ρ} {p : Pipe (Option ρ) n} {path : Path} {tree : PendingTree}
      {nodes : List Node} :
      a.phase = .saving path tree → nodes.Perm tree.children → codec.toVec nodes = none →
      Step env codec b a p none { a with phase := .stopped } p
  | treeCaller {a : Archiver ρ} {p p' : Pipe (Option ρ) n} :
      Pipe.CallStep env p (.caller none) p' →
      Step env codec b a p (some (.caller none))
        (a.noteTree ((p.callers none).outcome (p'.callers none))) p'
  | finalizeRoot {a : Archiver ρ} {p : Pipe (Option ρ) n} :
      a.phase = .waiting → a.processed = [] →
      Step env codec b a p none { a with phase := .finalizing a.serializer.snapshotRootPath } p

end Archiver

/-! ## What the archiver refers to -/

section Grounded

variable (codec : TreeCodec) (plain : ID → Bytes)

/-- Everything in the closure of the tree is safe. -/
def SafeTree (Safe : ID → Prop) (t : ID) : Prop := ∀ id, Closure codec plain t id → Safe id

/-- The blobs of the node are safe, and so is the closure of its tree. -/
structure Node.Grounded (Safe : ID → Prop) (node : Node) : Prop where
  blobs : ∀ ids, node.blobs = some ids → ∀ id ∈ ids, Safe id
  tree : ∀ t, node.tree = some t → SafeTree codec plain Safe t

/-- What the serializer has in hand is grounded, and a blob it saves has the nodes it holds. -/
def SerializerPhase.Grounded (Safe : ID → Prop) (saving : Option Blob) : SerializerPhase → Prop
  | .saving _ tree => tree.All (Node.Grounded codec plain Safe)
  | .storing _ tree nodes => tree.All (Node.Grounded codec plain Safe) ∧
      (∀ node ∈ nodes, node.Grounded codec plain Safe) ∧
      ∀ c, saving = some c → codec.fromSlice c.data = some nodes
  | .waiting | .finalizing _ | .stopped => True

/-- Every ID that the archiver has in hand is safe. `saving` is the blob that the serializer saves.
-/
structure Archiver.Grounded {ρ : Type} (Safe : ID → Prop) (saving : Option Blob) (a : Archiver ρ) :
    Prop where
  prevTrees : ∀ t ∈ a.prevTrees, SafeTree codec plain Safe t
  prevNodes : ∀ node ∈ a.prevNodes, node.Grounded codec plain Safe
  jobs : ∀ k job, a.jobs k = some job → job.item.node.Bare ∧ ∀ id ∈ job.ids, Safe id
  processed : ∀ x ∈ a.processed, x.2.node.Grounded codec plain Safe
  serializer : a.serializer.All (Node.Grounded codec plain Safe)
  phase : a.phase.Grounded codec plain Safe saving
  root : ∀ t, a.serializer.rootTreeId = some t → SafeTree codec plain Safe t

variable {codec plain} {Safe Safe' : ID → Prop} {node : Node}

theorem Node.Grounded.mono (h : node.Grounded codec plain Safe) (hS : ∀ id, Safe id → Safe' id) :
    node.Grounded codec plain Safe' :=
  ⟨fun ids hids id hid => hS id (h.blobs ids hids id hid),
    fun t ht id hid => hS id (h.tree t ht id hid)⟩

theorem Node.Bare.grounded (h : node.Bare) : node.Grounded codec plain Safe := by
  refine ⟨fun ids hids => ?_, fun t ht => ?_⟩
  · rw [h.1] at hids
    cases hids
  · rw [h.2] at ht
    cases ht

/-- A saved tree is safe when it is itself safe and its nodes are grounded. -/
theorem safeTree_of_nodes {t : ID} {nodes : List Node}
    (hnodes : codec.fromSlice (plain t) = some nodes)
    (ht : Safe t) (h : ∀ node ∈ nodes, node.Grounded codec plain Safe) :
    SafeTree codec plain Safe t := by
  intro id hid
  have hmem : ∀ {node : Node}, NodeOf codec plain t node → node ∈ nodes := by
    rintro node ⟨nodes', hnodes', hnode⟩
    rw [hnodes] at hnodes'
    cases hnodes'
    exact hnode
  rcases hid.cases_root with rfl | ⟨node, ids, hnode, hblobs, hid⟩ | ⟨node, sub, hnode, hsub, hid⟩
  · exact ht
  · exact (h node (hmem hnode)).blobs ids hblobs id hid
  · exact (h node (hmem hnode)).tree sub hsub id hid

/-- The nodes of a tree whose closure is safe are grounded. -/
theorem SafeTree.grounded {t : ID} (h : SafeTree codec plain Safe t)
    (hnode : NodeOf codec plain t node) : node.Grounded codec plain Safe := by
  refine ⟨fun ids hids id hid => h id (.blob .root hnode hids hid), fun sub hsub id hid => ?_⟩
  have hbelow : TreeOf codec plain t sub := .sub .root hnode hsub
  cases hid with
  | tree ht => exact h id (.tree (hbelow.trans ht))
  | blob ht hnode' hblobs hmem => exact h id (.blob (hbelow.trans ht) hnode' hblobs hmem)

/-- The node of a saved directory is grounded. -/
theorem grounded_completedDirNode {path : Path} {tree : PendingTree} {t : ID}
    (htree : tree.All (Node.Grounded codec plain Safe)) (ht : SafeTree codec plain Safe t) :
    (TreeSerializer.completedDirNode path tree t).Grounded codec plain Safe := by
  refine ⟨fun ids hids id hid => ?_, fun t' ht' => ?_⟩
  · cases hnode : tree.node with
    | none =>
      simp only [TreeSerializer.completedDirNode, hnode, Option.getD_none] at hids
      cases hids
    | some node =>
      simp only [TreeSerializer.completedDirNode, hnode, Option.getD_some] at hids
      exact (htree.node node hnode).blobs ids hids id hid
  · cases ht'
    exact ht

namespace Archiver

variable {ρ : Type} {a a' : Archiver ρ} {saving : Option Blob}

theorem Grounded.mono (h : a.Grounded codec plain Safe saving) (hS : ∀ id, Safe id → Safe' id) :
    a.Grounded codec plain Safe' saving where
  prevTrees := fun t ht id hid => hS id (h.prevTrees t ht id hid)
  prevNodes := fun node hnode => (h.prevNodes node hnode).mono hS
  jobs := fun k job hjob => ⟨(h.jobs k job hjob).1, fun id hid => hS id ((h.jobs k job hjob).2 id hid)⟩
  processed := fun x hx => (h.processed x hx).mono hS
  serializer := h.serializer.mono fun _ hn => hn.mono hS
  phase := by
    have htree : ∀ {tree : PendingTree}, tree.All (Node.Grounded codec plain Safe) →
        tree.All (Node.Grounded codec plain Safe') := fun ht =>
      ⟨fun n hn => (ht.node n hn).mono hS, fun n hn => (ht.children n hn).mono hS⟩
    have hp := h.phase
    cases hphase : a.phase with
    | saving path tree =>
      rw [hphase] at hp
      exact htree hp
    | storing path tree nodes =>
      rw [hphase] at hp
      exact ⟨htree hp.1, fun node hnode => (hp.2.1 node hnode).mono hS, hp.2.2⟩
    | waiting | finalizing _ | stopped => trivial
  root := fun t ht id hid => hS id (h.root t ht id hid)

theorem Grounded.init {parent : Option Snapshot} {root : Path} {counts : Nat × List (Path × Nat)}
    (h : ∀ snap, parent = some snap → SafeTree codec plain Safe snap.tree) :
    (init parent root counts : Archiver ρ).Grounded codec plain Safe none where
  prevTrees := by
    intro t ht
    cases parent with
    | none => cases ht
    | some snap =>
      cases List.mem_singleton.mp ht
      exact h snap rfl
  prevNodes := fun _ hnode => by cases hnode
  jobs := fun _ _ hjob => by cases hjob
  processed := fun _ hx => by cases hx
  serializer := TreeSerializer.All.new root counts
  phase := trivial
  root := fun _ ht => by cases ht

theorem Grounded.emit {path : Path} {item : StreamNode} (h : a.Grounded codec plain Safe saving)
    (hitem : item.node.Grounded codec plain Safe) :
    (a.emit path item).Grounded codec plain Safe saving := by
  refine { h with processed := fun x hx => ?_ }
  rcases List.mem_append.mp hx with hold | hnew
  · exact h.processed x hold
  · rw [List.mem_singleton.mp hnew]
    exact hitem

/-- One thread of the pool goes on with another job. -/
theorem Grounded.update [DecidableEq ρ] {k : ρ} {job? : Option Job}
    (h : a.Grounded codec plain Safe saving)
    (hjob : ∀ job, job? = some job → job.item.node.Bare ∧ ∀ id ∈ job.ids, Safe id) :
    Grounded codec plain Safe saving { a with jobs := Function.update a.jobs k job? } := by
  refine { h with jobs := fun k' job hk' => ?_ }
  by_cases heq : k' = k
  · subst heq
    simp only [Function.update_self] at hk'
    exact hjob job hk'
  · simp only [Function.update_of_ne heq] at hk'
    exact h.jobs k' job hk'

/-- A chunk that was saved is safe. -/
theorem Grounded.noteChunk [DecidableEq ρ] {k : ρ} {o : CallOutcome}
    (h : a.Grounded codec plain Safe saving) (ho : ∀ id, o = .ok id → Safe id) :
    (a.noteChunk k o).Grounded codec plain Safe saving := by
  cases o with
  | running => exact h
  | err =>
    refine h.update fun job hjob => ?_
    rw [Option.map_eq_some_iff] at hjob
    obtain ⟨old, hold, rfl⟩ := hjob
    exact h.jobs k old hold
  | ok id =>
    refine h.update fun job hjob => ?_
    rw [Option.map_eq_some_iff] at hjob
    obtain ⟨old, hold, rfl⟩ := hjob
    refine ⟨(h.jobs k old hold).1, fun id' hid' => ?_⟩
    rcases List.mem_append.mp hid' with hmem | hnew
    · exact (h.jobs k old hold).2 id' hmem
    · rw [List.mem_singleton.mp hnew]
      exact ho id rfl

/-- A tree that was saved is safe, since the nodes of the directory are grounded. -/
theorem Grounded.noteTree {o : CallOutcome} {saving' : Option Blob}
    (h : a.Grounded codec plain Safe saving) (hsaving : saving' = saving ∨ saving' = none)
    (ho : ∀ id, o = .ok id → Safe id ∧ ∃ c, saving = some c ∧ c.data = plain id) :
    (a.noteTree o).Grounded codec plain Safe saving' := by
  have hkeep : a.Grounded codec plain Safe saving' := by
    refine { h with phase := ?_ }
    have hp := h.phase
    cases hphase : a.phase with
    | storing path tree nodes =>
      rw [hphase] at hp
      refine ⟨hp.1, hp.2.1, fun c hc => ?_⟩
      rcases hsaving with heq | heq <;> rw [heq] at hc
      · exact hp.2.2 c hc
      · cases hc
    | saving path tree => rw [hphase] at hp; exact hp
    | waiting | finalizing _ | stopped => trivial
  cases o with
  | running =>
    have hsame : a.noteTree .running = a := by
      unfold Archiver.noteTree
      cases a.phase <;> rfl
    rw [hsame]
    exact hkeep
  | err =>
    have hstop : a.noteTree .err = { a with phase := .stopped } := by
      unfold Archiver.noteTree
      cases a.phase <;> rfl
    rw [hstop]
    exact { hkeep with phase := trivial }
  | ok id =>
    cases hphase : a.phase with
    | storing path tree nodes =>
      have hp := h.phase
      rw [hphase] at hp
      obtain ⟨hid, c, hc, hdata⟩ := ho id rfl
      have hnodes : codec.fromSlice (plain id) = some nodes := hdata ▸ hp.2.2 c hc
      have htree : SafeTree codec plain Safe id := safeTree_of_nodes hnodes hid hp.2.1
      have hnode : (TreeSerializer.completedDirNode path tree id).Grounded codec plain Safe :=
        grounded_completedDirNode hp.1 htree
      unfold Archiver.noteTree
      rw [hphase]
      dsimp only
      cases hresume : a.serializer.resume path tree id with
      | none => exact { hkeep with phase := trivial }
      | some next =>
        obtain ⟨ts, next⟩ := next
        obtain ⟨hall, hroot⟩ := h.serializer.resume hnode hresume
        have hroot' : ∀ t, ts.rootTreeId = some t → SafeTree codec plain Safe t := by
          intro t ht
          rcases hroot with hr | hr <;> rw [hr] at ht
          · exact h.root t ht
          · cases ht
            exact htree
        cases next with
        | some next =>
          exact { hkeep with phase := trivial, serializer := hall, root := hroot' }
        | none => exact { hkeep with phase := trivial, serializer := hall, root := hroot' }
    | waiting | finalizing _ | saving _ _ | stopped =>
      unfold Archiver.noteTree
      rw [hphase]
      exact hkeep

end Archiver

end Grounded

/-! ## Steps over a pipeline -/

/-- A call was told about the blob, or an index file lists it. -/
def Pipe.Safe {κ : Type} {n : Nat} (b : Backend) (p : Pipe κ n) (id : ID) : Prop :=
  p.Knows id ∨ b.Indexed Set.univ id

/-- What `load_blob` returns is the plaintext of the ID. -/
theorem Pipe.Inv.loadBlob_eq {κ : Type} {n : Nat} {env : Env} {plain : ID → Bytes} {b : Backend}
    {p : Pipe κ n} (h : p.Inv env plain Set.univ Set.univ b) {id : ID} {bytes : Bytes}
    (hload : loadBlob env b p.index id = some bytes) : bytes = plain id :=
  Mapache.loadBlob_eq (fun e he _ => (h.sound.entries e he).2) hload

namespace Archiver

variable {ρ : Type} [DecidableEq ρ] {n : Nat} {env : Env} {codec : TreeCodec} {plain : ID → Bytes}
  {b : Backend} {a a' : Archiver ρ} {p p' : Pipe (Option ρ) n}
  {l : Option (PipeEvent (Option ρ))}

/-- The archiver works on the pipeline only through its calls. -/
theorem Step.pipe (h : Step env codec b a p l a' p') :
    p' = p ∨ ∃ e, l = some e ∧ Pipe.CallStep env p e p' := by
  cases h with
  | chunk _ _ hcall | caller hcall | save _ _ _ _ hcall | treeCaller hcall =>
    exact Or.inr ⟨_, rfl, hcall⟩
  | _ => exact Or.inl rfl

/-- **Every step of the archiver keeps it grounded.** -/
theorem Grounded.step (h : a.Grounded codec plain (p.Safe b) (p.callers none).blob)
    (hinv : p.Inv env plain Set.univ Set.univ b) (hstep : Step env codec b a p l a' p') :
    a'.Grounded codec plain (p'.Safe b) (p'.callers none).blob := by
  -- a call only adds to what is safe
  have hsafe : ∀ {e : PipeEvent (Option ρ)}, Pipe.CallStep env p e p' →
      ∀ id, p.Safe b id → p'.Safe b id := by
    rintro e hcall id (hk | hi)
    · exact Or.inl (hk.step hinv.sound (.call hcall))
    · exact Or.inr hi
  cases hstep with
  | @loadPrev t bytes nodes ht hload hnodes =>
    have hbytes : codec.fromSlice (plain t) = some nodes := hinv.loadBlob_eq hload ▸ hnodes
    have hnode : ∀ node ∈ nodes, node.Grounded codec plain (p.Safe b) := fun node hmem =>
      (h.prevTrees t ht).grounded ⟨nodes, hbytes, hmem⟩
    refine { h with prevTrees := fun t' ht' => ?_, prevNodes := fun node hmem => ?_ }
    · rcases List.mem_append.mp ht' with hold | hnew
      · exact h.prevTrees t' hold
      · obtain ⟨node, hmem, htree⟩ := List.mem_filterMap.mp hnew
        exact (hnode node hmem).tree t' htree
    · rcases List.mem_append.mp hmem with hold | hnew
      · exact h.prevNodes node hold
      · exact hnode node hnew
  | @unchanged path item prev hbare hprev hhint =>
    have hnode : item.node.Grounded codec plain (p.Safe b) := hbare.grounded
    refine h.emit ⟨fun ids hids => ?_, fun t ht => hnode.tree t ht⟩
    simp only [StreamNode.unchanged] at hids
    split at hids
    · exact (h.prevNodes prev hprev).blobs ids hids
    · exact hnode.blobs ids hids
  | inline hbare hfile => exact h.emit hbare.grounded
  | begin hk hbare hfile =>
    refine h.update fun job hjob => ?_
    cases hjob
    exact ⟨hbare, fun id hid => by cases hid⟩
  | @chunk _ k job data hk hfailed hcall =>
    rw [hcall.callers_of_ne (k := some k) (Or.inr ⟨_, _, _, rfl⟩) (by simp)]
    exact h.mono (hsafe hcall)
  | @caller _ k hcall =>
    rw [hcall.callers_of_ne (k := some k) (Or.inl rfl) (by simp)]
    refine (h.mono (hsafe hcall)).noteChunk fun id hid => ?_
    obtain ⟨c, hc, rfl⟩ := Pipe.returned_of_outcome hid
    exact hsafe hcall _ (Or.inl (hinv.known.callers (some k) c (by rw [hc]; rfl)))
  | @finish k job hk hfailed hidle =>
    have hjob := h.jobs k job hk
    refine (h.update fun _ hnone => by cases hnone).emit ⟨fun ids hids => ?_, fun t ht => ?_⟩
    · cases hids
      exact hjob.2
    · exact hjob.1.grounded.tree t ht
  | @skip k job hk hidle =>
    exact (h.update fun _ hnone => by cases hnone).emit (h.jobs k job hk).1.grounded
  | drop hidle => exact h.update fun _ hnone => by cases hnone
  | @receive path next item rest ts hphase hproc hitem =>
    have hmem : (path, item) ∈ a.processed := by rw [hproc]; exact List.mem_cons_self
    refine { h with
      processed := fun x hx => h.processed x (by rw [hproc]; exact List.mem_cons_of_mem _ hx)
      serializer := h.serializer.handleProcessedItem (h.processed _ hmem) hitem
      phase := trivial
      root := ?_ }
    rw [TreeSerializer.rootTreeId_handleProcessedItem hitem]
    exact h.root
  | receiveFail hphase hproc hitem =>
    exact { h with
      processed := fun x hx => h.processed x (by rw [hproc]; exact List.mem_cons_of_mem _ hx)
      phase := trivial }
  | incomplete hphase htake => exact { h with phase := trivial }
  | @complete path ts tree hphase htake =>
    obtain ⟨hall, htree⟩ := h.serializer.takeComplete htake
    refine { h with serializer := hall, phase := ?_, root := ?_ }
    · dsimp only
      split
      · exact htree
      · trivial
    · rw [TreeSerializer.rootTreeId_takeComplete htake]
      exact h.root
  | @save _ path tree nodes bytes hphase hperm hsorted hvec hcall =>
    have hmono := h.mono (hsafe hcall)
    have htree := hmono.phase
    rw [hphase] at htree
    refine { hmono with phase := ⟨htree, fun node hnode => ?_, fun c hc => ?_⟩ }
    · exact htree.children node (hperm.mem_iff.mp hnode)
    · cases hcall with
      | call t data saveId hk =>
        simp only [Function.update_self, CallPhase.blob, Option.some.injEq] at hc
        rw [← hc]
        exact codec.fromSlice_toVec nodes bytes hvec
  | saveFail hphase hperm hvec => exact { h with phase := trivial }
  | treeCaller hcall =>
    refine (h.mono (hsafe hcall)).noteTree ?_ fun id hid => ?_
    · rcases hcall.blob_or_idle with heq | heq
      · exact Or.inl heq
      · exact Or.inr (by rw [heq]; rfl)
    · obtain ⟨c, hc, rfl⟩ := Pipe.returned_of_outcome hid
      have hblob : (p.callers none).blob = some c := by rw [hc]; rfl
      exact ⟨hsafe hcall _ (Or.inl (hinv.known.callers none c (by rw [hc]; rfl))),
        c, hblob, ((hinv.sound.callers none).1 c hblob).data⟩
  | finalizeRoot hphase hproc => exact { h with phase := trivial }

end Archiver

end Mapache
