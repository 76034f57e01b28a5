import Mapache.Restorer.LocalFs
import Mapache.Restorer.Restore

/-!
# The run of a restore

`Restorer::restore` as a transition system over the local file system. The nodes of the snapshot
come one after the other: a directory or a symbolic link is created at once, a file is planned and
joins a batch, and a batch that is full is flushed by `restore_packs`. Then the pending hard links
are created, and a second pass over the nodes sets the times.

A step may fail as the source lets it fail. A failure that is reported is an error of the run;
others are only a warning or a line of the log. The directories above a node are nodes that come
before it, so what `ensure_parent_dir` adds is left out, and so are the owners, modes and
attributes, which no other step reads.

What a step does to the file system is said once, in `Step.effect`; the nodes that are visited are
those before the rest of the stream (`Step.streamed`).
-/

set_option autoImplicit false

namespace Mapache

open Lib

/-! ## Options and state -/

/-- A node of the snapshot with the path it is restored to and, for a symbolic link, its target. -/
structure RestoreNode where
  path : Path
  node : Node
  symlinkTarget : Option Bytes

/-- `RestoreOptions`, without the selection of the nodes. -/
structure RestoreOptions where
  strategy : Strategy
  dryRun : Bool
  quitOnError : Bool
  verify : Bool
  batchSize : Option Nat

/-- `Restorer`: the repository, the options and the nodes, and what the system says about links and
directories. -/
structure Restorer where
  env : Env
  config : RestoreConfig
  backend : Backend
  index : MasterIndex
  fingerprint : List ID → ID
  /-- The path that the target of a link at a path stands for. -/
  leadsTo : Path → Bytes → Path
  /-- The length that is reported for a directory. -/
  dirLen : Path → Nat
  opts : RestoreOptions
  nodes : List RestoreNode

inductive RestorePhase where
  | streaming (todo : List RestoreNode)
  | linking (todo : List (Path × Path))
  | metadata (todo : List RestoreNode)
  | finished (ok : Bool)

/-- The state of a restore. An error is reported for a path or for none. -/
structure RestorerState where
  phase : RestorePhase
  fs : LocalFs
  batch : List PlannedFile
  primaries : Table (Nat × Nat) (Path × ID)
  links : List (Path × Path)
  errors : List (Option Path)

/-- What a step is about. -/
inductive RestoreLabel where
  /-- The node is planned, and this is what could be read at its path. -/
  | plan (n : RestoreNode) (read : Option Bytes)
  /-- `symlink` fails. -/
  | symlinkFail (n : RestoreNode)
  | metadata (n : RestoreNode)
  | other

/-! ## Visiting a node -/

/-- What a path leads to, read as a whole. A directory can be opened, but it has no bytes. -/
def LocalFs.read (leadsTo : Path → Bytes → Path) (fs : LocalFs) (path : Path) : Option Bytes :=
  (fs.follow leadsTo path).bind fun q =>
    match fs.entry q with
    | .file i => some (fs.bytes i)
    | .directory => some []
    | .absent | .symlink _ => none

/-- The path leads to a directory. -/
def LocalFs.IsDir (leadsTo : Path → Bytes → Path) (fs : LocalFs) (path : Path) : Prop :=
  ∃ q, fs.follow leadsTo path = some q ∧ fs.entry q = .directory

/-- What visiting a node does. -/
inductive NodeEffect where
  | nothing
  | create (entry : DirEntry)
  | error (stops : Bool)
  /-- The file is restored: all of it, or only the changed blobs. -/
  | restore (changed : Option (List Nat))

/-- What a decision of the planner does. -/
def NodeEffect.ofPlan (quitOnError : Bool) : Option RestorePlan → NodeEffect
  | none => .error quitOnError
  | some .skip => .nothing
  | some .fullRestore => .restore none
  | some (.selectiveRestore changed) => .restore (some changed)

namespace Restorer

variable (r : Restorer)

def getData : ID → Option BlobLocator := r.index.getData r.env.toIndexEnv

/-- `symlink_metadata`. The times of links and directories may be any. -/
inductive Stat (fs : LocalFs) (path : Path) : Option LocalMetadata → Prop where
  | absent : fs.entry path = .absent → Stat fs path none
  | file {i : Nat} : fs.entry path = .file i →
      Stat fs path (some ⟨(fs.bytes i).length, some (fs.mtime i)⟩)
  | symlink {target : Bytes} {modified : Option Int} : fs.entry path = .symlink target →
      Stat fs path (some ⟨target.length, modified⟩)
  | directory {modified : Option Int} : fs.entry path = .directory →
      Stat fs path (some ⟨r.dirLen path, modified⟩)

/-- The decision for a node. -/
def plan (n : RestoreNode) (md : Option LocalMetadata) (read : Option Bytes) : Option RestorePlan :=
  shouldRestoreNode r.env.fromContent r.getData r.opts.strategy r.opts.verify n.node md read

/-- What may happen when a node is visited. -/
inductive Visits (fs : LocalFs) (n : RestoreNode) : RestoreLabel → NodeEffect → Prop where
  | mkdir : n.node.nodeType = .directory → r.opts.dryRun = false → fs.entry n.path = .absent →
      Visits fs n .other (.create .directory)
  | dirExists : n.node.nodeType = .directory → r.opts.dryRun = true ∨ fs.IsDir r.leadsTo n.path →
      Visits fs n .other .nothing
  | dirFail : n.node.nodeType = .directory → r.opts.dryRun = false → ¬ fs.IsDir r.leadsTo n.path →
      Visits fs n .other (.error false)
  | symlink {target : Bytes} : n.node.nodeType = .symlink → r.opts.dryRun = false →
      n.symlinkTarget = some target → fs.entry n.path = .absent →
      Visits fs n .other (.create (.symlink target))
  /-- A link without a target, or one that would stand where something is, is only warned about. -/
  | symlinkKept : n.node.nodeType = .symlink →
      r.opts.dryRun = true ∨ n.symlinkTarget = none ∨ fs.entry n.path ≠ .absent →
      Visits fs n .other .nothing
  | symlinkFail : n.node.nodeType = .symlink → r.opts.dryRun = false →
      Visits fs n (.symlinkFail n) .nothing
  | plan {md : Option LocalMetadata} {read : Option Bytes} : n.node.nodeType = .file →
      r.Stat fs n.path md → read = none ∨ read = fs.read r.leadsTo n.path →
      Visits fs n (.plan n read) (.ofPlan r.opts.quitOnError (r.plan n md read))
  | special : n.node.nodeType ≠ .directory → n.node.nodeType ≠ .symlink → n.node.nodeType ≠ .file →
      Visits fs n .other .nothing

/-- A file that is to be restored joins the batch. A blob that is not in the index is an error. -/
def accumulate (s : RestorerState) (item : RestoreItem) : RestorerState :=
  let detected := detectHardlink r.fingerprint s.primaries item
  { s with
    batch := s.batch ++ [⟨item, detected.1.isSome⟩]
    primaries := detected.2
    links := s.links ++ (detected.1.map fun primary => (item.path, primary)).toList
    errors := s.errors ++ (item.blobs.filter fun id => (r.getData id).isNone).map fun _ => none }

/-- The state after a node. -/
def visited (s : RestorerState) (n : RestoreNode) (todo : List RestoreNode) :
    NodeEffect → RestorerState
  | .nothing => { s with phase := .streaming todo }
  | .create entry => { s with phase := .streaming todo, fs := s.fs.setEntry n.path entry }
  | .error stops =>
    { s with
      phase := if stops then .finished false else .streaming todo
      errors := s.errors ++ [some n.path] }
  | .restore changed => r.accumulate { s with phase := .streaming todo } ⟨n.path, n.node, changed⟩

/-! ## Batches, links and times -/

/-- The batch is flushed before the next node. -/
def isFull (batch : List PlannedFile) : Bool :=
  batch ≠ [] && r.opts.batchSize.any fun size => size ≤ batch.length

/-- The batch is flushed now: it is full, or there are no more nodes. -/
def Due (batch : List PlannedFile) (todo : List RestoreNode) : Prop :=
  batch ≠ [] ∧ (r.isFull batch = true ∨ todo = [])

/-- `restore_packs` for the files of the batch, as far as it gets: what it does to each of them, and
what this makes of the file system. -/
def Flushes (s : RestorerState) (packs : RestoreState) (fs' : LocalFs) : Prop :=
  ∃ (order : List (ID × BlobLocator)) (ls : List Unit) (log : List (Path × FileOp)),
    order.Perm (packBlobs (batchRequests r.getData s.batch)) ∧
    Run (RestoreState.Step r.env r.config r.backend (s.batch.map (PlannedFile.plan r.getData))
        (batchRequests r.getData s.batch) (entriesOf s.batch (s.fs.view r.leadsTo)))
      (RestoreState.start r.config (s.batch.map (PlannedFile.plan r.getData))
        (allSegments r.config.segments order)) ls packs ∧
    (∀ path, LocalFs.opsAt path log = batchOps s.batch packs path) ∧ s.fs.Does log fs'

/-- What a hard link that fails may leave: the file that was there, nothing, or a copy, which may
not be whole. -/
inductive LinkFails (fs : LocalFs) (path : Path) : LocalFs → Prop where
  | kept : LinkFails fs path fs
  | removed : fs.entry path ≠ .directory → LinkFails fs path (fs.setEntry path .absent)
  | copied {ino : Nat} {bytes : Bytes} {now : Int} : fs.entry path ≠ .directory →
      (∀ q, fs.entry q ≠ .file ino) →
      LinkFails fs path ((fs.setEntry path (.file ino)).change ino bytes now)

/-- `try_restore_node_metadata`, for the time of the last change. A link that is in the place of
another node is followed. -/
inductive SetsTime (fs : LocalFs) (n : RestoreNode) : LocalFs → Prop where
  /-- Nothing is there, no time is recorded, or the time cannot be set. -/
  | kept : SetsTime fs n fs
  | own {i : Nat} {time : Int} : n.node.nodeType = .symlink → fs.entry n.path = .file i →
      n.node.metadata.modifiedTime = some time → SetsTime fs n (fs.setTime i time)
  | followed {q : Path} {i : Nat} {time : Int} : n.node.nodeType ≠ .symlink →
      fs.follow r.leadsTo n.path = some q → fs.entry q = .file i →
      n.node.metadata.modifiedTime = some time → SetsTime fs n (fs.setTime i time)

/-! ## The run -/

/-- The start of `Restorer::restore`. -/
def start (fs : LocalFs) : RestorerState := ⟨.streaming r.nodes, fs, [], ∅, [], []⟩

/-- A step of `Restorer::restore`. -/
inductive Step : RestorerState → RestoreLabel → RestorerState → Prop where
  | visit {s : RestorerState} {n : RestoreNode} {todo : List RestoreNode} {l : RestoreLabel}
      {effect : NodeEffect} : s.phase = .streaming (n :: todo) → r.isFull s.batch = false →
      r.Visits s.fs n l effect → Step s l (r.visited s n todo effect)
  /-- A path outside of the target. -/
  | badPath {s : RestorerState} {todo : List RestoreNode} : s.phase = .streaming todo →
      Step s .other { s with errors := s.errors ++ [none] }
  /-- A subtree cannot be read, which ends the stream. -/
  | streamFail {s : RestorerState} {todo : List RestoreNode} : s.phase = .streaming todo →
      Step s .other { s with phase := .streaming [], errors := s.errors ++ [none] }
  | flushDry {s : RestorerState} {todo : List RestoreNode} : s.phase = .streaming todo →
      r.Due s.batch todo → r.opts.dryRun = true → Step s .other { s with batch := [] }
  | flush {s : RestorerState} {todo : List RestoreNode} {packs : RestoreState} {fs' : LocalFs} :
      s.phase = .streaming todo → r.Due s.batch todo → r.opts.dryRun = false →
      r.Flushes s packs fs' → packs.Done → packs.failed = false →
      Step s .other { s with fs := fs', batch := [] }
  | flushFail {s : RestorerState} {todo : List RestoreNode} {packs : RestoreState} {fs' : LocalFs} :
      s.phase = .streaming todo → r.Due s.batch todo → r.opts.dryRun = false →
      r.Flushes s packs fs' → packs.failed = true → r.opts.quitOnError = false →
      Step s .other { s with fs := fs', batch := [], errors := s.errors ++ [none] }
  | flushAbort {s : RestorerState} {todo : List RestoreNode} {packs : RestoreState} {fs' : LocalFs} :
      s.phase = .streaming todo → r.Due s.batch todo → r.opts.dryRun = false →
      r.Flushes s packs fs' → Step s .other { s with fs := fs', phase := .finished false }
  | startLinks {s : RestorerState} : s.phase = .streaming [] → s.batch = [] →
      Step s .other { s with phase := .linking (if r.opts.dryRun then [] else s.links) }
  | link {s : RestorerState} {path primary : Path} {todo : List (Path × Path)} :
      s.phase = .linking ((path, primary) :: todo) → s.fs.entry path ≠ .directory →
      s.fs.entry primary ≠ .absent → s.fs.entry primary ≠ .directory →
      Step s .other { s with phase := .linking todo, fs := s.fs.setEntry path (s.fs.entry primary) }
  | linkFail {s : RestorerState} {path primary : Path} {todo : List (Path × Path)} {fs' : LocalFs} :
      s.phase = .linking ((path, primary) :: todo) → LinkFails s.fs path fs' →
      r.opts.quitOnError = false →
      Step s .other { s with phase := .linking todo, fs := fs', errors := s.errors ++ [none] }
  | linkAbort {s : RestorerState} {path primary : Path} {todo : List (Path × Path)} {fs' : LocalFs} :
      s.phase = .linking ((path, primary) :: todo) → LinkFails s.fs path fs' →
      r.opts.quitOnError = true → Step s .other { s with phase := .finished false, fs := fs' }
  | startMetadata {s : RestorerState} : s.phase = .linking [] →
      Step s .other
        { s with phase := if r.opts.dryRun then .finished true else .metadata r.nodes }
  /-- The nodes come in any order, the directories after the others. -/
  | metadata {s : RestorerState} {n : RestoreNode} {before after : List RestoreNode} {fs' : LocalFs} :
      s.phase = .metadata (before ++ n :: after) →
      (n.node.isDir = true → ∀ m ∈ before ++ after, m.node.isDir = true) → r.SetsTime s.fs n fs' →
      Step s (.metadata n) { s with phase := .metadata (before ++ after), fs := fs' }
  /-- The second stream may end early, which is only warned about. -/
  | finish {s : RestorerState} {todo : List RestoreNode} : s.phase = .metadata todo →
      Step s .other { s with phase := .finished true }
  /-- The shutdown signal. -/
  | interrupt {s : RestorerState} : (∀ ok, s.phase ≠ .finished ok) →
      Step s .other { s with phase := .finished false }

/-! ## What a step does -/

section Effects

variable {r : Restorer} {s s' : RestorerState} {l : RestoreLabel} {n : RestoreNode}

@[simp] theorem accumulate_fs (item : RestoreItem) : (r.accumulate s item).fs = s.fs := rfl

@[simp] theorem accumulate_phase (item : RestoreItem) : (r.accumulate s item).phase = s.phase := rfl

/-- A node creates something only where nothing is. -/
theorem Visits.create {entry : DirEntry} (h : r.Visits s.fs n l (.create entry)) :
    r.opts.dryRun = false ∧ s.fs.entry n.path = .absent ∧ ∀ i, entry ≠ .file i := by
  generalize heffect : NodeEffect.create entry = effect at h
  cases h with
  | mkdir hdir hdry habsent =>
    cases heffect
    exact ⟨hdry, habsent, fun i h => by cases h⟩
  | symlink hlink hdry htarget habsent =>
    cases heffect
    exact ⟨hdry, habsent, fun i h => by cases h⟩
  | @plan md read hfile hstat hread =>
    unfold NodeEffect.ofPlan at heffect
    split at heffect <;> cases heffect
  | _ => cases heffect

/-- A file is restored by a decision of the planner. -/
theorem Visits.restore {changed : Option (List Nat)} (h : r.Visits s.fs n l (.restore changed)) :
    n.node.nodeType = .file ∧ ∃ md read, r.Stat s.fs n.path md ∧ l = .plan n read ∧
      (read = none ∨ read = s.fs.read r.leadsTo n.path) ∧
      r.plan n md read = some (changed.elim .fullRestore .selectiveRestore) := by
  generalize heffect : NodeEffect.restore changed = effect at h
  cases h with
  | @plan md read hfile hstat hread =>
    refine ⟨hfile, md, read, hstat, rfl, hread, ?_⟩
    unfold NodeEffect.ofPlan at heffect
    split at heffect
    · cases heffect
    · cases heffect
    · rename_i hplan
      cases heffect
      exact hplan
    · rename_i hplan
      cases heffect
      exact hplan
  | _ => cases heffect

/-- **What a step does to the file system.** -/
theorem Step.effect (h : r.Step s l s') :
    s'.fs = s.fs ∨
    (∃ n todo entry, s.phase = .streaming (n :: todo) ∧ r.Visits s.fs n l (.create entry) ∧
      s'.fs = s.fs.setEntry n.path entry) ∨
    (∃ todo packs, s.phase = .streaming todo ∧ r.opts.dryRun = false ∧ r.Flushes s packs s'.fs) ∨
    (∃ path primary todo, s.phase = .linking ((path, primary) :: todo) ∧
      (s'.fs = s.fs.setEntry path (s.fs.entry primary) ∨ LinkFails s.fs path s'.fs)) ∨
    (∃ n todo, s.phase = .metadata todo ∧ n ∈ todo ∧ l = .metadata n ∧ r.SetsTime s.fs n s'.fs) := by
  cases h with
  | @visit n todo _ effect hphase hfull hvisit =>
    cases effect with
    | create entry => exact Or.inr (Or.inl ⟨n, todo, entry, hphase, hvisit, rfl⟩)
    | nothing | error | restore => exact Or.inl rfl
  | badPath | streamFail | flushDry | startLinks | startMetadata | finish | interrupt =>
    exact Or.inl rfl
  | flush hphase hdue hdry hflush hdone hok | flushFail hphase hdue hdry hflush hfailed hquit
  | flushAbort hphase hdue hdry hflush =>
    exact Or.inr (Or.inr (Or.inl ⟨_, _, hphase, hdry, hflush⟩))
  | link hphase hpath habsent hdir =>
    exact Or.inr (Or.inr (Or.inr (Or.inl ⟨_, _, _, hphase, Or.inl rfl⟩)))
  | linkFail hphase hfails hquit | linkAbort hphase hfails hquit =>
    exact Or.inr (Or.inr (Or.inr (Or.inl ⟨_, _, _, hphase, Or.inr hfails⟩)))
  | metadata hphase hdirs htime =>
    refine Or.inr (Or.inr (Or.inr (Or.inr ⟨_, _, hphase, ?_, rfl, htime⟩)))
    exact List.mem_append_right _ List.mem_cons_self

/-- A run that is over takes no step. -/
theorem Step.not_finished (h : r.Step s l s') (ok : Bool) : s.phase ≠ .finished ok := by
  intro hphase
  cases h with
  | interrupt hs => exact hs ok hphase
  | visit hs | badPath hs | streamFail hs | flushDry hs | flush hs | flushFail hs | flushAbort hs
  | startLinks hs | link hs | linkFail hs | linkAbort hs | startMetadata hs | metadata hs
  | finish hs =>
    rw [hphase] at hs
    cases hs

/-- Errors stay reported. -/
theorem Step.errors_append (h : r.Step s l s') : ∃ more, s'.errors = s.errors ++ more := by
  cases h with
  | @visit n todo _ effect hphase hfull hvisit =>
    cases effect with
    | nothing | create => exact ⟨[], (List.append_nil _).symm⟩
    | error | restore => exact ⟨_, rfl⟩
  | badPath | streamFail | flushFail | linkFail => exact ⟨_, rfl⟩
  | flushDry | flush | flushAbort | startLinks | link | linkAbort | startMetadata | metadata | finish
  | interrupt => exact ⟨[], (List.append_nil _).symm⟩

/-- The paths of a batch that something is done to. -/
theorem mem_of_batchOps {files : List PlannedFile} {packs : RestoreState} {path : Path}
    (h : batchOps files packs path ≠ []) : path ∈ files.map fun f => f.path := by
  by_contra hmem
  exact h (batchOps_of_notMem hmem)

/-- A flush works at the paths of the batch. -/
theorem Flushes.exists_log {packs : RestoreState} {fs' : LocalFs} (h : r.Flushes s packs fs') :
    ∃ log, s.fs.Does log fs' ∧ (∀ path, LocalFs.opsAt path log = batchOps s.batch packs path) ∧
      ∀ path ∈ log.map Prod.fst, path ∈ s.batch.map fun f => f.path := by
  obtain ⟨order, ls, log, -, -, hops, hdoes⟩ := h
  refine ⟨log, hdoes, hops, fun path hpath => ?_⟩
  have hne : batchOps s.batch packs path ≠ [] := by
    rw [← hops path]
    intro hnil
    exact LocalFs.opsAt_eq_nil.mp hnil hpath
  exact mem_of_batchOps hne

end Effects

/-! ## The paths of a run -/

/-- The files that are restored, and those that are linked, have a path in `P`. -/
structure Scoped (r : Restorer) (P : Path → Prop) (s : RestorerState) : Prop where
  batch : ∀ f ∈ s.batch, P f.path
  primaries : ∀ key primary, s.primaries.lookup key = some primary → P primary.1
  links : ∀ link ∈ s.links, P link.1 ∧ P link.2
  linking : ∀ todo, s.phase = .linking todo → ∀ link ∈ todo, P link.1 ∧ P link.2
  streaming : ∀ todo, s.phase = .streaming todo → ∀ n ∈ todo, n ∈ r.nodes
  metadata : ∀ todo, s.phase = .metadata todo → ∀ n ∈ todo, n ∈ r.nodes

section Scope

variable {r : Restorer} {P : Path → Prop} {s s' : RestorerState} {l : RestoreLabel}

theorem Scoped.start (fs : LocalFs) : Scoped r P (r.start fs) where
  batch := fun f hf => by cases hf
  primaries := fun key primary h => by cases h
  links := fun link h => by cases h
  linking := fun todo h => by cases h
  streaming := fun todo h n hn => by
    cases h
    exact hn
  metadata := fun todo h => by cases h

/-- Only the file system and the errors are other ones. -/
theorem Scoped.congr (h : Scoped r P s) (hphase : s'.phase = s.phase) (hbatch : s'.batch = s.batch)
    (hprim : s'.primaries = s.primaries) (hlinks : s'.links = s.links) : Scoped r P s' := by
  refine ⟨?_, ?_, ?_, ?_, ?_, ?_⟩
  · rw [hbatch]
    exact h.batch
  · rw [hprim]
    exact h.primaries
  · rw [hlinks]
    exact h.links
  · rw [hphase]
    exact h.linking
  · rw [hphase]
    exact h.streaming
  · rw [hphase]
    exact h.metadata

/-- The run is over. -/
theorem Scoped.finished (h : Scoped r P s) {ok : Bool} {fs' : LocalFs} {errors : List (Option Path)} :
    Scoped r P { s with phase := .finished ok, fs := fs', errors := errors } :=
  ⟨h.batch, h.primaries, h.links, fun _ h => (by cases h), fun _ h => (by cases h),
    fun _ h => by cases h⟩

/-- The stream goes on. -/
theorem Scoped.stream (h : Scoped r P s) {todo todo' : List RestoreNode}
    (hphase : s.phase = .streaming todo) (hsub : todo' ⊆ todo) {fs' : LocalFs}
    {errors : List (Option Path)} :
    Scoped r P { s with phase := .streaming todo', fs := fs', errors := errors } := by
  refine ⟨h.batch, h.primaries, h.links, fun _ hp => (by cases hp), fun _ hp n hn => ?_,
    fun _ hp => by cases hp⟩
  cases hp
  exact h.streaming todo hphase n (hsub hn)

/-- A batch is flushed. -/
theorem Scoped.flushed (h : Scoped r P s) {fs' : LocalFs} {errors : List (Option Path)} :
    Scoped r P { s with fs := fs', batch := [], errors := errors } :=
  ⟨fun _ hf => (by cases hf), h.primaries, h.links, h.linking, h.streaming, h.metadata⟩

/-- A file joins the batch. -/
theorem Scoped.accumulate (h : Scoped r P s) {item : RestoreItem} (hitem : P item.path) :
    Scoped r P (r.accumulate s item) := by
  have hdetect : (∀ primary, (detectHardlink r.fingerprint s.primaries item).1 = some primary →
      P primary) ∧ ∀ key primary,
      (detectHardlink r.fingerprint s.primaries item).2.lookup key = some primary → P primary.1 := by
    rcases detectHardlink_cases r.fingerprint s.primaries item with
      ⟨key, primary, -, hlookup, -, heq⟩ | heq | ⟨key, -, heq⟩
    · rw [heq]
      refine ⟨fun p hp => ?_, h.primaries⟩
      cases hp
      exact h.primaries key primary hlookup
    · rw [heq]
      exact ⟨fun p hp => (by cases hp), h.primaries⟩
    · rw [heq]
      refine ⟨fun p hp => (by cases hp), fun key' primary hlookup => ?_⟩
      rw [Table.lookup_insert_eq_ite] at hlookup
      split at hlookup
      · cases hlookup
        exact hitem
      · exact h.primaries key' primary hlookup
  refine ⟨fun f hf => ?_, hdetect.2, fun link hlink => ?_, h.linking, h.streaming, h.metadata⟩
  · rcases List.mem_append.mp hf with hf | hf
    · exact h.batch f hf
    · rw [List.mem_singleton.mp hf]
      exact hitem
  · rcases List.mem_append.mp hlink with hlink | hlink
    · exact h.links link hlink
    · obtain ⟨primary, hprimary, rfl⟩ := Option.map_eq_some_iff.mp (Option.mem_toList.mp hlink)
      exact ⟨hitem, hdetect.1 primary hprimary⟩

/-- A step keeps the paths, when the files that join the batch have a path in `P`. -/
theorem Scoped.step (h : Scoped r P s) (hstep : r.Step s l s')
    (hrestore : ∀ n ∈ r.nodes, ∀ changed, r.Visits s.fs n l (.restore changed) → P n.path) :
    Scoped r P s' := by
  cases hstep with
  | @visit n todo _ effect hphase hfull hvisit =>
    have hstream : Scoped r P { s with phase := .streaming todo } :=
      h.stream hphase (List.subset_cons_self n todo)
    have hn := h.streaming _ hphase n List.mem_cons_self
    cases effect with
    | nothing => exact hstream
    | create entry => exact h.stream hphase (List.subset_cons_self n todo)
    | error stops =>
      cases stops with
      | true => exact h.finished
      | false => exact h.stream hphase (List.subset_cons_self n todo)
    | restore changed => exact hstream.accumulate (hrestore n hn changed hvisit)
  | badPath hphase => exact h.congr rfl rfl rfl rfl
  | streamFail hphase => exact h.stream hphase (List.nil_subset _)
  | flushDry | flush | flushFail => exact h.flushed
  | flushAbort | linkAbort | finish | interrupt => exact h.finished
  | startLinks hphase hbatch =>
    refine ⟨h.batch, h.primaries, h.links, fun todo hp link hlink => ?_, fun _ hp => (by cases hp),
      fun _ hp => by cases hp⟩
    cases hp
    split at hlink
    · cases hlink
    · exact h.links link hlink
  | link hphase hpath habsent hdir | linkFail hphase hfails hquit =>
    refine ⟨h.batch, h.primaries, h.links, fun todo hp link hlink => ?_, fun _ hp => (by cases hp),
      fun _ hp => by cases hp⟩
    cases hp
    exact h.linking _ hphase link (List.mem_cons_of_mem _ hlink)
  | startMetadata hphase =>
    split
    · exact h.finished
    · refine ⟨h.batch, h.primaries, h.links, fun _ hp => (by cases hp), fun _ hp => (by cases hp),
        fun _ hp n hn => ?_⟩
      cases hp
      exact hn
  | metadata hphase hdirs htime =>
    refine ⟨h.batch, h.primaries, h.links, fun _ hp => (by cases hp), fun _ hp => (by cases hp),
      fun _ hp m hm => ?_⟩
    cases hp
    refine h.metadata _ hphase m ?_
    rcases List.mem_append.mp hm with hm | hm
    · exact List.mem_append_left _ hm
    · exact List.mem_append_right _ (List.mem_cons_of_mem _ hm)

end Scope

end Restorer

/-! ## A file that is patched -/

/-- The node of the file of two blobs. -/
def patchNode : RestoreNode := ⟨(restoreItem none).path, (restoreItem none).node, none⟩

/-- A restore of the file of two blobs. -/
def patchRestorer (strategy : Strategy) : Restorer where
  env := restoreEnv
  config := restoreConfig
  backend := restoreBackend
  index := restoreIndex
  fingerprint := fun _ => 0
  leadsTo := fun path _ => path
  dirLen := fun _ => 0
  opts := ⟨strategy, false, false, false, none⟩
  nodes := [patchNode]

/-- The steps of the restore below. -/
def patchLabels : List RestoreLabel :=
  [.plan patchNode (some [5, 9]), .other, .other, .other, .metadata patchNode, .other]

section Patch

variable {fs₀ : LocalFs} {ino : Nat}

/-- The wrong blob is written. -/
theorem flushes_patch (strategy : Strategy) (hentry : fs₀.entry [.normal [97]] = .file 0)
    (hbytes : fs₀.bytes 0 = [5, 9]) (hfresh : ∀ q, fs₀.entry q ≠ .file ino) {s : RestorerState}
    (hfs : s.fs = fs₀) (hbatch : s.batch = [⟨restoreItem (some [1]), false⟩]) (now : Int) :
    (patchRestorer strategy).Flushes s (restoreWritten [.write 1 [6]] [])
    (fs₀.change 0 [5, 6] now) := by
  have hview : entriesOf s.batch (s.fs.view (patchRestorer strategy).leadsTo) 0 = .file [5, 9] := by
    rw [hbatch, hfs]
    change fs₀.view _ [.normal [97]] = .file [5, 9]
    rw [LocalFs.view, hentry]
    dsimp only
    rw [hbytes]
  obtain ⟨ls, hrun⟩ := run_selective hview
  refine ⟨packBlobs (batchRequests restoreGet [⟨restoreItem (some [1]), false⟩]), ls,
    [([.normal [97]], .write 1 [6])], ?_, ?_, fun path => ?_, ?_⟩
  · rw [hbatch]
    exact .refl _
  · rw [hbatch] at hrun ⊢
    exact hrun
  · rw [hbatch]
    by_cases hpath : path = [.normal [97]]
    · subst hpath
      rfl
    · have hops : batchOps [⟨restoreItem (some [1]), false⟩] (restoreWritten [.write 1 [6]] []) path =
          [] := by
        apply batchOps_of_notMem
        intro hmem
        exact hpath (List.mem_singleton.mp hmem)
      rw [hops, LocalFs.opsAt_eq_nil]
      intro hmem
      exact hpath (List.mem_singleton.mp hmem)
  · have happly : fs₀.apply [.normal [97]] ino now (.write 1 [6]) = fs₀.change 0 [5, 6] now := by
      rw [LocalFs.apply, hentry]
      dsimp only [FileOp.apply]
      rw [hbytes]
      rfl
    rw [hfs, ← happly]
    exact .cons hfresh .nil

/-- A whole run, with any strategy. -/
theorem run_patch (strategy : Strategy) (hentry : fs₀.entry [.normal [97]] = .file 0)
    (hbytes : fs₀.bytes 0 = [5, 9]) (hfresh : ∀ q, fs₀.entry q ≠ .file ino) (now : Int) :
    ∃ s, Run (patchRestorer strategy).Step ((patchRestorer strategy).start fs₀) patchLabels s ∧
      s.phase = .finished true ∧ s.errors = [] ∧ s.fs = fs₀.change 0 [5, 6] now := by
  have hread : fs₀.read (patchRestorer strategy).leadsTo [.normal [97]] = some [5, 9] := by
    rw [LocalFs.read, LocalFs.follow_of_file hentry, Option.bind_some, hentry]
    dsimp only
    rw [hbytes]
  have hplan : (patchRestorer strategy).plan patchNode
      (some ⟨(fs₀.bytes 0).length, some (fs₀.mtime 0)⟩) (some [5, 9]) =
        some (.selectiveRestore [1]) := by
    rw [hbytes]
    rfl
  have hvisit : (patchRestorer strategy).Visits fs₀ patchNode (.plan patchNode (some [5, 9]))
      (.ofPlan false ((patchRestorer strategy).plan patchNode
        (some ⟨(fs₀.bytes 0).length, some (fs₀.mtime 0)⟩) (some [5, 9]))) :=
    .plan rfl (.file hentry) (Or.inr hread.symm)
  rw [hplan] at hvisit
  have hplanned : (patchRestorer strategy).Step ((patchRestorer strategy).start fs₀) _
      ((patchRestorer strategy).visited ((patchRestorer strategy).start fs₀) patchNode []
        (.restore (some [1]))) :=
    .visit rfl rfl hvisit
  have hbatch : (patchRestorer strategy).visited ((patchRestorer strategy).start fs₀) patchNode []
      (.restore (some [1])) =
        ⟨.streaming [], fs₀, [⟨restoreItem (some [1]), false⟩], ∅, [], []⟩ := rfl
  rw [hbatch] at hplanned
  have hflushed : (patchRestorer strategy).Step
      ⟨.streaming [], fs₀, [⟨restoreItem (some [1]), false⟩], ∅, [], []⟩ .other
      ⟨.streaming [], fs₀.change 0 [5, 6] now, [], ∅, [], []⟩ :=
    .flush rfl ⟨List.cons_ne_nil _ _, Or.inr rfl⟩ rfl
      (flushes_patch strategy hentry hbytes hfresh rfl rfl now) ⟨rfl, rfl⟩ rfl
  have hlinks : (patchRestorer strategy).Step ⟨.streaming [], fs₀.change 0 [5, 6] now, [], ∅, [], []⟩
      .other ⟨.linking [], fs₀.change 0 [5, 6] now, [], ∅, [], []⟩ := .startLinks rfl rfl
  have hmetadata : (patchRestorer strategy).Step ⟨.linking [], fs₀.change 0 [5, 6] now, [], ∅, [], []⟩
      .other ⟨.metadata (patchRestorer strategy).nodes, fs₀.change 0 [5, 6] now, [], ∅, [], []⟩ :=
    .startMetadata rfl
  have htime : (patchRestorer strategy).Step
      ⟨.metadata (patchRestorer strategy).nodes, fs₀.change 0 [5, 6] now, [], ∅, [], []⟩ _
      ⟨.metadata ([] ++ []), fs₀.change 0 [5, 6] now, [], ∅, [], []⟩ :=
    .metadata rfl (fun _ m hm => by cases hm) .kept
  have hfinish : (patchRestorer strategy).Step
      ⟨.metadata ([] ++ []), fs₀.change 0 [5, 6] now, [], ∅, [], []⟩ .other
      ⟨.finished true, fs₀.change 0 [5, 6] now, [], ∅, [], []⟩ := .finish rfl
  exact ⟨_, (((((Run.nil.snoc hplanned).snoc hflushed).snoc hlinks).snoc hmetadata).snoc htime).snoc
    hfinish, rfl, rfl, rfl⟩

end Patch

end Mapache
