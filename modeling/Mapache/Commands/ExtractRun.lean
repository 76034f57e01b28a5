import Mapache.Commands.Extract
import Mapache.Lib.Progress

/-!
# The tasks of an extraction

`extract_nodes_parallel` of `commands/cmd_bundle.rs` as a system of tasks: the walker sends the
nodes of the trees over one bounded channel and the directories over another one, the node workers
take nodes from the first channel, and the directories are received after the walker has ended. The
extraction gets to its end on every schedule if and only if the bundle has no more directories than
fit into the second channel (`extraction_completes_iff`).
-/

set_option autoImplicit false

namespace Mapache

open Lib

/-- The capacity of both channels. -/
def channelCapacity : Nat := 4096

/-- `Path::join`, on the bytes of the path. -/
def joinPath (path name : Bytes) : Bytes :=
  if name.head? = some 0x2f then name
  else if path = [] ∨ path.getLast? = some 0x2f then path ++ name
  else path ++ 0x2f :: name

/-- A node that is sent with its path. -/
abbrev Item := Bytes × Node

/-- A directory that is sent with its metadata. -/
abbrev DirItem := Bytes × Metadata

namespace BundleTrees

/-! ## The tasks -/

/-- The tree that a node leads to. -/
def subtree (node : Node) : Option ID := if node.isDir then node.tree else none

/-- Where the walker is. -/
inductive Walker where
  /-- At the head of `while let Some(..) = stack.pop()`. -/
  | popping
  /-- At the head of `for node in tree.nodes`. -/
  | visiting (dir : Bytes) (nodes : List Node)
  /-- Before `tx.send`. -/
  | sending (dir : Bytes) (node : Node) (nodes : List Node)
  | finished

/-- What the function itself does next. -/
inductive Pass where
  /-- At `futures::join!`. -/
  | joining
  | collecting (directories : List DirItem)
  | restoring (directories : List DirItem)
  | done

structure Extraction where
  walker : Walker
  stack : List (Bytes × ID)
  /-- The channel between `tx` and `rx`. -/
  nodeQueue : List Item
  /-- The channel between `dir_tx` and `dir_rx`. -/
  dirQueue : List DirItem
  /-- The nodes that `for_each_concurrent` works on. -/
  active : List Item
  pass : Pass
  /-- The nodes that were given to a worker, in this order. -/
  handed : List Item
  /-- The nodes that a worker is done with. -/
  processed : List Item
  /-- The directories whose metadata was restored. -/
  restored : List DirItem

/-- The state after the tasks were spawned. -/
def startExtraction (dest : Bytes) (root : ID) : Extraction where
  walker := .popping
  stack := [(dest, root)]
  nodeQueue := []
  dirQueue := []
  active := []
  pass := .joining
  handed := []
  processed := []
  restored := []

/-- The tasks. -/
inductive ExtractEvent where
  | walk
  | take
  | process
  | pass

variable (trees : BundleTrees) (workers : Nat)

/-- A step of a task. A `send` to a full channel waits. The receiver of the nodes is dropped only
after the walker has dropped the sender, so that a `send` to it does not fail. -/
inductive ExtractStep (s : Extraction) : ExtractEvent → Extraction → Prop where
  /-- A tree that cannot be loaded or parsed is reported and left out. -/
  | skip {dir : Bytes} {t : ID} {stack : List (Bytes × ID)} : s.walker = .popping →
      s.stack = (dir, t) :: stack → trees.load t = none →
      ExtractStep s .walk { s with stack := stack }
  | load {dir : Bytes} {t : ID} {stack : List (Bytes × ID)} {nodes : List Node} :
      s.walker = .popping → s.stack = (dir, t) :: stack → trees.load t = some nodes →
      ExtractStep s .walk { s with walker := .visiting dir nodes, stack := stack }
  /-- The walker ends, and drops both senders. -/
  | finish : s.walker = .popping → s.stack = [] →
      ExtractStep s .walk { s with walker := .finished }
  | next {dir : Bytes} : s.walker = .visiting dir [] →
      ExtractStep s .walk { s with walker := .popping }
  /-- The directory is created, sent, and its tree pushed. -/
  | directory {dir : Bytes} {node : Node} {nodes : List Node} :
      s.walker = .visiting dir (node :: nodes) → node.isDir = true →
      s.dirQueue.length < channelCapacity →
      ExtractStep s .walk { s with
        walker := .sending dir node nodes
        stack := ((subtree node).map fun t => (joinPath dir node.nameBytes, t)).toList ++ s.stack
        dirQueue := s.dirQueue ++ [(joinPath dir node.nameBytes, node.metadata)] }
  | other {dir : Bytes} {node : Node} {nodes : List Node} :
      s.walker = .visiting dir (node :: nodes) → node.isDir = false →
      ExtractStep s .walk { s with walker := .sending dir node nodes }
  | send {dir : Bytes} {node : Node} {nodes : List Node} : s.walker = .sending dir node nodes →
      s.nodeQueue.length < channelCapacity →
      ExtractStep s .walk { s with
        walker := .visiting dir nodes
        nodeQueue := s.nodeQueue ++ [(joinPath dir node.nameBytes, node)] }
  /-- `for_each_concurrent` takes a node when it has a worker left. Zero workers are no limit. -/
  | take {item : Item} {queue : List Item} : s.nodeQueue = item :: queue →
      (workers = 0 ∨ s.active.length < workers) →
      ExtractStep s .take { s with
        nodeQueue := queue
        active := item :: s.active
        handed := s.handed ++ [item] }
  /-- A worker is done, whether the node was written or its error reported. -/
  | process {before after : List Item} {item : Item} : s.active = before ++ item :: after →
      ExtractStep s .process { s with
        active := before ++ after
        processed := s.processed ++ [item] }
  /-- Both futures of `join!` are ready: the stream has ended and nothing is worked on. -/
  | join : s.pass = .joining → s.walker = .finished → s.nodeQueue = [] → s.active = [] →
      ExtractStep s .pass { s with pass := .collecting [] }
  | collect {directories : List DirItem} {dir : DirItem} {queue : List DirItem} :
      s.pass = .collecting directories → s.dirQueue = dir :: queue →
      ExtractStep s .pass { s with
        pass := .collecting (directories ++ [dir])
        dirQueue := queue }
  /-- `recv` has returned `None`. The sort by length, longest first, is not stable. -/
  | sort {directories sorted : List DirItem} : s.pass = .collecting directories →
      s.dirQueue = [] → s.walker = .finished → sorted.Perm directories →
      sorted.Pairwise (fun a b => b.1.length ≤ a.1.length) →
      ExtractStep s .pass { s with pass := .restoring sorted }
  | restore {directories : List DirItem} {dir : DirItem} : s.pass = .restoring (dir :: directories) →
      ExtractStep s .pass { s with
        pass := .restoring directories
        restored := s.restored ++ [dir] }
  | finishPass : s.pass = .restoring [] → ExtractStep s .pass { s with pass := .done }

/-! ## What is to be extracted -/

/-- The nodes of a tree and of the trees below it, down to `depth` levels. -/
def nodesBelow : Nat → Bytes → ID → List Item
  | 0, _, _ => []
  | depth + 1, dir, t =>
    ((trees.load t).getD []).flatMap fun node =>
      (joinPath dir node.nameBytes, node) ::
        ((subtree node).map (nodesBelow depth (joinPath dir node.nameBytes))).getD []

/-- The tree has at most `depth` levels. -/
def Within : Nat → ID → Prop
  | 0, _ => False
  | depth + 1, t => ∀ nodes node t', trees.load t = some nodes → node ∈ nodes →
      subtree node = some t' → Within depth t'

/-- The directories among the nodes, as they are sent. -/
def dirItems (items : List Item) : List DirItem :=
  (items.filter fun item => item.2.isDir).map fun item => (item.1, item.2.metadata)

/-- Every node was given to a worker once and is done, the metadata of every directory was restored
once, and that of a longer path before that of a shorter one. -/
structure Complete (items : List Item) (s : Extraction) : Prop where
  handed : s.handed.Perm items
  processed : s.processed.Perm items
  restored : s.restored.Perm (dirItems items)
  ordered : s.restored.Pairwise fun a b => b.1.length ≤ a.1.length

/-- On no schedule does the extraction get stuck before it is done, when it is done it is complete,
and no metadata of a directory is restored while a node is not yet written. -/
def Completes (dest : Bytes) (root : ID) (items : List Item) : Prop :=
  ∀ ls s, Run (ExtractStep trees workers) (startExtraction dest root) ls s →
    (s.pass ≠ .done → CanStep (ExtractStep trees workers) s) ∧
      (s.pass = .done → Complete items s) ∧
      (s.restored ≠ [] → s.processed.Perm items)

/-! ## The walker -/

/-- What the walker pushes for a node. -/
def entryOf (dir : Bytes) (node : Node) : List (Bytes × ID) :=
  ((subtree node).map fun t => (joinPath dir node.nameBytes, t)).toList

/-- What it pushes for the nodes of a directory, the last one on top. -/
def pushedFrom (dir : Bytes) : List Node → List (Bytes × ID)
  | [] => []
  | node :: nodes => pushedFrom dir nodes ++ entryOf dir node

/-- What it sends for them. -/
def sentFrom (dir : Bytes) (nodes : List Node) : List Item :=
  nodes.map fun node => (joinPath dir node.nameBytes, node)

/-- From this stack on, the walker sends these nodes and ends. -/
inductive Walks : List (Bytes × ID) → List Item → Prop where
  | nil : Walks [] []
  | skip {dir : Bytes} {t : ID} {stack : List (Bytes × ID)} {items : List Item} :
      trees.load t = none → Walks stack items → Walks ((dir, t) :: stack) items
  | load {dir : Bytes} {t : ID} {nodes : List Node} {stack : List (Bytes × ID)}
      {items : List Item} : trees.load t = some nodes → Walks (pushedFrom dir nodes ++ stack) items →
      Walks ((dir, t) :: stack) (sentFrom dir nodes ++ items)

/-- From here on, the walker sends these nodes and ends. -/
def Unsent (stack : List (Bytes × ID)) : Walker → List Item → Prop
  | .popping, items => Walks trees stack items
  | .visiting dir nodes, items =>
    ∃ rest, Walks trees (pushedFrom dir nodes ++ stack) rest ∧ items = sentFrom dir nodes ++ rest
  | .sending dir node nodes, items =>
    ∃ rest, Walks trees (pushedFrom dir nodes ++ stack) rest ∧
      items = (joinPath dir node.nameBytes, node) :: (sentFrom dir nodes ++ rest)
  | .finished, items => items = []

variable {trees workers} {total : List Item} {s s' : Extraction} {e : ExtractEvent}

theorem entryOf_of_not_dir {node : Node} (h : node.isDir = false) (dir : Bytes) :
    entryOf dir node = [] := by
  simp [entryOf, subtree, h]

/-- The walk of a tree with finitely many levels ends, and sends the nodes below it. -/
theorem Within.walks {depth : Nat} {t : ID} (h : trees.Within depth t) (dir : Bytes)
    {stack : List (Bytes × ID)} {rest : List Item} (hrest : Walks trees stack rest) :
    ∃ items, items.Perm (nodesBelow trees depth dir t) ∧
      Walks trees ((dir, t) :: stack) (items ++ rest) := by
  induction depth generalizing t dir stack rest with
  | zero => cases h
  | succ depth ih =>
    cases hload : trees.load t with
    | none =>
      refine ⟨[], ?_, .skip hload hrest⟩
      rw [nodesBelow, hload]
      exact List.Perm.nil
    | some nodes =>
      -- the nodes from one on, and the trees that are pushed for them
      have hnodes : ∀ ns, (∀ node ∈ ns, node ∈ nodes) → ∀ stack rest, Walks trees stack rest →
          ∃ items, Walks trees (pushedFrom dir ns ++ stack) (items ++ rest) ∧
            (sentFrom dir ns ++ items).Perm (ns.flatMap fun node =>
              (joinPath dir node.nameBytes, node) ::
                ((subtree node).map (nodesBelow trees depth (joinPath dir node.nameBytes))).getD [])
                  := by
        intro ns
        induction ns with
        | nil => exact fun _ stack rest hrest => ⟨[], hrest, .nil⟩
        | cons node ns ihNodes =>
          intro hmem stack rest hrest
          rw [List.forall_mem_cons] at hmem
          obtain ⟨below, hbelow, hentry⟩ : ∃ below,
              below.Perm
                (((subtree node).map (nodesBelow trees depth (joinPath dir node.nameBytes))).getD []) ∧
              Walks trees (entryOf dir node ++ stack) (below ++ rest) := by
            cases hsub : subtree node with
            | none => exact ⟨[], .nil, by rwa [entryOf, hsub]⟩
            | some t' =>
              obtain ⟨below, hbelow, hwalks⟩ :=
                ih (h nodes node t' hload hmem.1 hsub) (joinPath dir node.nameBytes) hrest
              exact ⟨below, hbelow, by rwa [entryOf, hsub]⟩
          obtain ⟨items, hitems, hperm⟩ := ihNodes hmem.2 _ _ hentry
          refine ⟨items ++ below, ?_, ?_⟩
          · rwa [pushedFrom, List.append_assoc, List.append_assoc]
          · rw [sentFrom, List.map_cons, List.flatMap_cons, List.cons_append, List.cons_append]
            refine List.Perm.cons _ ?_
            rw [← List.append_assoc]
            exact (List.perm_append_comm).trans (hbelow.append hperm)
      obtain ⟨items, hwalks, hperm⟩ := hnodes nodes (fun _ hmem => hmem) stack rest hrest
      refine ⟨sentFrom dir nodes ++ items, ?_, ?_⟩
      · rwa [nodesBelow, hload]
      · rw [List.append_assoc]
        exact .load hload hwalks

/-! ## What every schedule keeps -/

/-- The directory that was sent while its node was not. -/
def Walker.ahead : Walker → List Item
  | .sending dir node _ => [(joinPath dir node.nameBytes, node)]
  | _ => []

/-- The directories that were received and whose metadata is not yet restored. -/
def Pass.directories : Pass → List DirItem
  | .collecting directories => directories
  | .restoring directories => directories
  | _ => []

/-- Longer paths come first. -/
def LongestFirst (directories : List DirItem) : Prop :=
  directories.Pairwise fun a b => b.1.length ≤ a.1.length

/-- The walker and the workers have ended. -/
structure Extraction.Ended (s : Extraction) : Prop where
  walker : s.walker = .finished
  nodeQueue : s.nodeQueue = []
  active : s.active = []

/-- What each part of the function finds. -/
def Extraction.PassInv (s : Extraction) : Prop :=
  match s.pass with
  | .joining => s.restored = []
  | .collecting _ => s.Ended ∧ s.restored = []
  | .restoring directories =>
    s.Ended ∧ s.dirQueue = [] ∧ LongestFirst (s.restored ++ directories)
  | .done => s.Ended ∧ s.dirQueue = [] ∧ LongestFirst s.restored

/-- What holds of an extraction of these nodes, in the order in which they are sent. -/
structure Extraction.Inv (trees : BundleTrees) (total : List Item) (s : Extraction) : Prop where
  unsent : ∃ items, Unsent trees s.stack s.walker items ∧ s.handed ++ s.nodeQueue ++ items = total
  active : (s.processed ++ s.active).Perm s.handed
  directories : (s.restored ++ s.pass.directories ++ s.dirQueue).Perm
    (dirItems (s.handed ++ s.nodeQueue ++ s.walker.ahead))
  full : s.dirQueue.length ≤ channelCapacity
  bounded : s.walker = .finished → (dirItems total).length ≤ channelCapacity
  pass : s.PassInv

theorem dirItems_append (items items' : List Item) :
    dirItems (items ++ items') = dirItems items ++ dirItems items' := by
  simp [dirItems]

/-- The walker has not ended, so that the function waits at `join!`. -/
theorem Extraction.PassInv.joining (h : s.PassInv) (hwalker : s.walker ≠ .finished) :
    s.pass = .joining ∧ s.restored = [] := by
  unfold PassInv at h
  split at h
  · rename_i hpass
    exact ⟨hpass, h⟩
  · exact absurd h.1.walker hwalker
  · exact absurd h.1.walker hwalker
  · exact absurd h.1.walker hwalker

theorem Extraction.PassInv.of_joining (hpass : s.pass = .joining) (h : s.restored = []) :
    s.PassInv := by
  unfold PassInv
  rwa [hpass]

/-- While the walker runs, the directories that it has sent are in the channel. -/
theorem Extraction.Inv.dirQueue_perm (h : s.Inv trees total) (hwalker : s.walker ≠ .finished) :
    s.dirQueue.Perm (dirItems (s.handed ++ s.nodeQueue ++ s.walker.ahead)) := by
  obtain ⟨hpass, hrestored⟩ := h.pass.joining hwalker
  have hdirs := h.directories
  rw [hrestored, hpass] at hdirs
  exact hdirs

theorem Extraction.Inv.start {dest : Bytes} {root : ID} (h : Walks trees [(dest, root)] total) :
    (startExtraction dest root).Inv trees total where
  unsent := ⟨total, h, rfl⟩
  active := .nil
  directories := .nil
  full := Nat.zero_le _
  bounded := nofun
  pass := rfl

/-- The lists as they are after a step of the walker. -/
theorem Extraction.Inv.walker_step (h : s.Inv trees total) (walker : Walker)
    {stack : List (Bytes × ID)} {nodeQueue : List Item} {dirQueue : List DirItem} {items : List Item}
    (hrunning : s.walker ≠ .finished) (hunsent : Unsent trees stack walker items)
    (htotal : s.handed ++ nodeQueue ++ items = total)
    (hdirs : dirQueue.Perm (dirItems (s.handed ++ nodeQueue ++ walker.ahead)))
    (hfull : dirQueue.length ≤ channelCapacity) :
    ({ s with walker := walker, stack := stack, nodeQueue := nodeQueue, dirQueue := dirQueue } :
      Extraction).Inv trees total := by
  obtain ⟨hpass, hrestored⟩ := h.pass.joining hrunning
  refine ⟨⟨items, hunsent, htotal⟩, h.active, ?_, hfull, ?_, .of_joining hpass hrestored⟩
  · dsimp only
    rw [hrestored, hpass]
    exact hdirs
  · rintro (rfl : walker = .finished)
    -- every node was sent, and with it every directory
    rw [show items = [] from hunsent, List.append_nil] at htotal
    have hlen := hdirs.length_eq
    rw [show Walker.finished.ahead = [] from rfl, List.append_nil, htotal] at hlen
    exact hlen ▸ hfull

theorem Extraction.Inv.walk (h : s.Inv trees total) (hstep : ExtractStep trees workers s .walk s') :
    s'.Inv trees total := by
  obtain ⟨items, hunsent, htotal⟩ := h.unsent
  cases hstep with
  | skip hwalker hstack hload =>
    have hrunning : s.walker ≠ .finished := by simp [hwalker]
    have hdirs := h.dirQueue_perm hrunning
    rw [hwalker, hstack] at hunsent
    cases hunsent with
    | skip _ hrest => exact h.walker_step s.walker hrunning (by rwa [hwalker]) htotal hdirs h.full
    | load hload' => cases hload.symm.trans hload'
  | load hwalker hstack hload =>
    have hrunning : s.walker ≠ .finished := by simp [hwalker]
    have hdirs := h.dirQueue_perm hrunning
    rw [hwalker, hstack] at hunsent
    rw [hwalker] at hdirs
    cases hunsent with
    | skip hload' => cases hload.symm.trans hload'
    | load hload' hrest =>
      cases hload.symm.trans hload'
      exact h.walker_step (.visiting _ _) hrunning ⟨_, hrest, rfl⟩ htotal hdirs h.full
  | finish hwalker hstack =>
    have hrunning : s.walker ≠ .finished := by simp [hwalker]
    have hdirs := h.dirQueue_perm hrunning
    rw [hwalker, hstack] at hunsent
    rw [hwalker] at hdirs
    cases hunsent
    exact h.walker_step .finished hrunning rfl htotal hdirs h.full
  | next hwalker =>
    have hrunning : s.walker ≠ .finished := by simp [hwalker]
    have hdirs := h.dirQueue_perm hrunning
    rw [hwalker] at hunsent hdirs
    obtain ⟨rest, hrest, rfl⟩ := hunsent
    exact h.walker_step .popping hrunning hrest htotal hdirs h.full
  | directory hwalker hdir hroom =>
    rename_i dir node nodes
    have hrunning : s.walker ≠ .finished := by simp [hwalker]
    have hdirs := h.dirQueue_perm hrunning
    rw [hwalker] at hunsent hdirs
    obtain ⟨rest, hrest, rfl⟩ := hunsent
    rw [pushedFrom, List.append_assoc] at hrest
    refine h.walker_step (.sending dir node nodes) hrunning ⟨rest, hrest, rfl⟩ htotal ?_ ?_
    · rw [Walker.ahead, dirItems_append]
      refine (hdirs.append_right _).trans (.of_eq ?_)
      simp [Walker.ahead, dirItems, hdir]
    · rw [List.length_append]
      exact hroom
  | other hwalker hdir =>
    rename_i dir node nodes
    have hrunning : s.walker ≠ .finished := by simp [hwalker]
    have hdirs := h.dirQueue_perm hrunning
    rw [hwalker] at hunsent hdirs
    obtain ⟨rest, hrest, rfl⟩ := hunsent
    rw [pushedFrom, entryOf_of_not_dir hdir, List.append_nil] at hrest
    refine h.walker_step (.sending dir node nodes) hrunning ⟨rest, hrest, rfl⟩ htotal ?_
      h.full
    refine hdirs.trans (.of_eq ?_)
    simp [Walker.ahead, dirItems, hdir]
  | send hwalker hroom =>
    rename_i dir node nodes
    have hrunning : s.walker ≠ .finished := by simp [hwalker]
    have hdirs := h.dirQueue_perm hrunning
    rw [hwalker] at hunsent hdirs
    obtain ⟨rest, hrest, rfl⟩ := hunsent
    refine h.walker_step (.visiting dir nodes) hrunning ⟨rest, hrest, rfl⟩ ?_ ?_ h.full
    · rw [← htotal]
      simp
    · refine hdirs.trans (.of_eq ?_)
      simp [Walker.ahead]

theorem Extraction.Inv.take (h : s.Inv trees total) (hstep : ExtractStep trees workers s .take s') :
    s'.Inv trees total := by
  cases hstep with
  | take hqueue hroom =>
    rename_i item queue
    have hmoved : s.handed ++ [item] ++ queue = s.handed ++ s.nodeQueue := by
      rw [hqueue, List.append_assoc, List.singleton_append]
    refine ⟨?_, ?_, ?_, h.full, h.bounded, ?_⟩
    · dsimp only
      rw [hmoved]
      exact h.unsent
    · dsimp only
      refine List.perm_middle.trans ((h.active.cons item).trans ?_)
      exact (List.perm_append_singleton item s.handed).symm
    · dsimp only
      rw [hmoved]
      exact h.directories
    · have hpass := h.pass
      unfold PassInv at hpass ⊢
      dsimp only
      split at hpass
      · exact hpass
      · cases hqueue.symm.trans hpass.1.nodeQueue
      · cases hqueue.symm.trans hpass.1.nodeQueue
      · cases hqueue.symm.trans hpass.1.nodeQueue

theorem Extraction.Inv.process (h : s.Inv trees total)
    (hstep : ExtractStep trees workers s .process s') : s'.Inv trees total := by
  cases hstep with
  | process hactive =>
    rename_i before after item
    refine ⟨h.unsent, ?_, h.directories, h.full, h.bounded, ?_⟩
    · have hperm := h.active
      rw [hactive] at hperm
      refine List.Perm.trans ?_ hperm
      dsimp only
      rw [List.append_assoc, List.singleton_append]
      exact List.Perm.append_left _ List.perm_middle.symm
    · have hpass := h.pass
      have hne : s.active ≠ [] := by simp [hactive]
      unfold PassInv at hpass ⊢
      dsimp only
      split at hpass
      · exact hpass
      · exact absurd hpass.1.active hne
      · exact absurd hpass.1.active hne
      · exact absurd hpass.1.active hne

theorem Extraction.Inv.passStep (h : s.Inv trees total)
    (hstep : ExtractStep trees workers s .pass s') : s'.Inv trees total := by
  have hdirs := h.directories
  have hpassInv := h.pass
  unfold PassInv at hpassInv
  cases hstep with
  | join hpass hwalker hqueue hactive =>
    rw [hpass] at hdirs hpassInv
    exact ⟨h.unsent, h.active, hdirs, h.full, h.bounded, ⟨⟨hwalker, hqueue, hactive⟩, hpassInv⟩⟩
  | collect hpass hqueue =>
    rename_i directories dir queue
    rw [hpass] at hdirs hpassInv
    refine ⟨h.unsent, h.active, ?_, ?_, h.bounded, ?_⟩
    · refine (List.Perm.of_eq ?_).trans hdirs
      simp [Pass.directories, hqueue]
    · have hfull := h.full
      rw [hqueue, List.length_cons] at hfull
      exact Nat.le_of_succ_le hfull
    · obtain ⟨hended, hrestored⟩ := hpassInv
      exact ⟨⟨hended.walker, hended.nodeQueue, hended.active⟩, hrestored⟩
  | sort hpass hqueue hwalker hperm hsorted =>
    rw [hpass] at hdirs hpassInv
    obtain ⟨hended, hrestored⟩ := hpassInv
    refine ⟨h.unsent, h.active, ?_, h.full, h.bounded,
      ⟨⟨hended.walker, hended.nodeQueue, hended.active⟩, hqueue, ?_⟩⟩
    · exact ((hperm.append_left _).append_right _).trans hdirs
    · dsimp only
      rwa [hrestored, List.nil_append]
  | restore hpass =>
    rename_i directories dir
    rw [hpass] at hdirs hpassInv
    obtain ⟨hended, hqueue, hsorted⟩ := hpassInv
    have hmoved : s.restored ++ [dir] ++ directories = s.restored ++ dir :: directories := by
      rw [List.append_assoc, List.singleton_append]
    refine ⟨h.unsent, h.active, ?_, h.full, h.bounded,
      ⟨⟨hended.walker, hended.nodeQueue, hended.active⟩, hqueue, ?_⟩⟩
    · refine (List.Perm.of_eq ?_).trans hdirs
      simp [Pass.directories]
    · dsimp only
      rwa [hmoved]
  | finishPass hpass =>
    rw [hpass] at hdirs hpassInv
    obtain ⟨hended, hqueue, hsorted⟩ := hpassInv
    rw [List.append_nil] at hsorted
    exact ⟨h.unsent, h.active, hdirs, h.full, h.bounded,
      ⟨⟨hended.walker, hended.nodeQueue, hended.active⟩, hqueue, hsorted⟩⟩

theorem Extraction.Inv.step (h : s.Inv trees total) (hstep : ExtractStep trees workers s e s') :
    s'.Inv trees total := by
  cases e with
  | walk => exact h.walk hstep
  | take => exact h.take hstep
  | process => exact h.process hstep
  | pass => exact h.passStep hstep

/-! ## Every step is a step to the end -/

def Walker.weight : Walker → Nat
  | .popping => 7
  | .visiting _ _ => 8
  | .sending _ _ _ => 2
  | .finished => 0

def Pass.weight : Pass → Nat
  | .joining => 3
  | .collecting directories => 2 + directories.length
  | .restoring directories => 1 + directories.length
  | .done => 0

/-- What is left to do. A node that is not sent yet is worth more than the trees and directories
that it adds. -/
def Extraction.measure (total : List Item) (s : Extraction) : Nat :=
  12 * (total.length - (s.handed.length + s.nodeQueue.length)) + s.walker.weight +
    3 * s.stack.length + 2 * s.nodeQueue.length + s.active.length + 2 * s.dirQueue.length +
    s.pass.weight

theorem Extraction.Inv.measure_lt (h : s.Inv trees total)
    (hstep : ExtractStep trees workers s e s') : s'.measure total < s.measure total := by
  unfold measure
  cases hstep with
  | skip hwalker hstack hload | load hwalker hstack hload =>
    simp only [hwalker, hstack, List.length_cons, Walker.weight]
    omega
  | finish hwalker hstack | next hwalker | other hwalker hdir =>
    simp only [hwalker, Walker.weight]
    omega
  | directory hwalker hdir hroom =>
    rename_i dir node nodes
    have hentry : ((subtree node).map fun t => (joinPath dir node.nameBytes,
        t)).toList.length ≤ 1 := by
      cases subtree node <;> simp
    simp only [hwalker, Walker.weight, List.length_append, List.length_singleton]
    omega
  | send hwalker hroom =>
    obtain ⟨items, hunsent, htotal⟩ := h.unsent
    rw [hwalker] at hunsent
    obtain ⟨rest, hrest, rfl⟩ := hunsent
    -- the node is one that was not sent before
    have hlen : s.handed.length + s.nodeQueue.length < total.length := by
      rw [← htotal, List.length_append, List.length_append, List.length_cons]
      omega
    simp only [hwalker, Walker.weight, List.length_append, List.length_singleton]
    omega
  | take hqueue hroom =>
    simp only [hqueue, List.length_append, List.length_cons, List.length_nil]
    omega
  | process hactive =>
    simp only [hactive, List.length_append, List.length_cons]
    omega
  | join hpass hwalker hqueue hactive | finishPass hpass =>
    simp only [hpass, Pass.weight, List.length_nil]
    omega
  | collect hpass hqueue =>
    simp only [hpass, hqueue, Pass.weight, List.length_append, List.length_cons, List.length_nil]
    omega
  | sort hpass hqueue hwalker hperm hsorted =>
    simp only [hpass, Pass.weight, hperm.length_eq]
    omega
  | restore hpass =>
    simp only [hpass, Pass.weight, List.length_cons]
    omega

/-! ## Progress -/

/-- Until everything was sent, there is room for the directory that comes next. -/
theorem Extraction.Inv.room (h : s.Inv trees total)
    (htotal : (dirItems total).length ≤ channelCapacity) {dir : Bytes} {node : Node}
    {nodes : List Node} (hwalker : s.walker = .visiting dir (node :: nodes))
    (hdir : node.isDir = true) : s.dirQueue.length < channelCapacity := by
  obtain ⟨items, hunsent, heq⟩ := h.unsent
  have hqueue := (h.dirQueue_perm (by simp [hwalker])).length_eq
  rw [hwalker] at hunsent hqueue
  obtain ⟨rest, -, rfl⟩ := hunsent
  rw [show (Walker.visiting dir (node :: nodes)).ahead = [] from rfl, List.append_nil] at hqueue
  have hhead : dirItems (sentFrom dir (node :: nodes) ++ rest) =
      (joinPath dir node.nameBytes, node.metadata) :: dirItems (sentFrom dir nodes ++ rest) := by
    simp [sentFrom, dirItems, hdir]
  rw [← heq, dirItems_append, hhead, List.length_append, List.length_cons] at htotal
  omega

/-- A walker that has not ended has a step when the nodes that it sent are all taken. -/
theorem Extraction.Inv.canStep_walker (h : s.Inv trees total)
    (htotal : (dirItems total).length ≤ channelCapacity) (hqueue : s.nodeQueue = [])
    (hwalker : s.walker ≠ .finished) : CanStep (ExtractStep trees workers) s := by
  cases hw : s.walker with
  | popping =>
    cases hstack : s.stack with
    | nil => exact ⟨_, _, .finish hw hstack⟩
    | cons entry stack =>
      cases hload : trees.load entry.2 with
      | none => exact ⟨_, _, .skip hw hstack hload⟩
      | some nodes => exact ⟨_, _, .load hw hstack hload⟩
  | visiting dir nodes =>
    cases nodes with
    | nil => exact ⟨_, _, .next hw⟩
    | cons node nodes =>
      cases hdir : node.isDir with
      | true => exact ⟨_, _, .directory hw hdir (h.room htotal hw hdir)⟩
      | false => exact ⟨_, _, .other hw hdir⟩
  | sending dir node nodes =>
    refine ⟨_, _, .send hw ?_⟩
    rw [hqueue]
    decide
  | finished => exact absurd hw hwalker

/-- After the walker and the workers have ended, the function goes on to its end. -/
theorem canStep_pass (hwalker : s.walker = .finished) (hqueue : s.nodeQueue = [])
    (hactive : s.active = []) (hdone : s.pass ≠ .done) :
    CanStep (ExtractStep trees workers) s := by
  cases hpass : s.pass with
  | joining => exact ⟨_, _, .join hpass hwalker hqueue hactive⟩
  | collecting directories =>
    cases hdirs : s.dirQueue with
    | nil =>
      have hsorted : (directories.insertionSort fun a b => b.1.length ≤ a.1.length).Pairwise
          fun a b => b.1.length ≤ a.1.length := by
        have : Std.Total fun a b : DirItem => b.1.length ≤ a.1.length := ⟨fun _ _ => Nat.le_total _ _⟩
        have : IsTrans DirItem fun a b => b.1.length ≤ a.1.length :=
          ⟨fun _ _ _ hab hbc => Nat.le_trans hbc hab⟩
        exact List.pairwise_insertionSort _ _
      exact ⟨_, _, .sort hpass hdirs hwalker (List.perm_insertionSort _ _) hsorted⟩
    | cons dir queue => exact ⟨_, _, .collect hpass hdirs⟩
  | restoring directories =>
    cases directories with
    | nil => exact ⟨_, _, .finishPass hpass⟩
    | cons dir directories => exact ⟨_, _, .restore hpass⟩
  | done => exact absurd hpass hdone

theorem Extraction.Inv.canStep (h : s.Inv trees total)
    (htotal : (dirItems total).length ≤ channelCapacity) (hdone : s.pass ≠ .done) :
    CanStep (ExtractStep trees workers) s := by
  cases hactive : s.active with
  | cons item after =>
    rw [← List.nil_append (item :: after)] at hactive
    exact ⟨_, _, .process hactive⟩
  | nil =>
    cases hqueue : s.nodeQueue with
    | cons item queue =>
      refine ⟨_, _, .take hqueue ?_⟩
      rw [hactive]
      exact Nat.eq_zero_or_pos workers
    | nil =>
      by_cases hwalker : s.walker = .finished
      · exact canStep_pass hwalker hqueue hactive hdone
      · exact h.canStep_walker htotal hqueue hwalker

/-! ## The end -/

theorem Extraction.Inv.handed_eq (h : s.Inv trees total) (hended : s.Ended) :
    s.handed = total ∧ s.processed.Perm total := by
  obtain ⟨items, hunsent, heq⟩ := h.unsent
  have hactive := h.active
  rw [hended.walker] at hunsent
  rw [hended.nodeQueue, show items = [] from hunsent, List.append_nil, List.append_nil] at heq
  rw [hended.active, List.append_nil, heq] at hactive
  exact ⟨heq, hactive⟩

theorem Extraction.Inv.complete (h : s.Inv trees total) (hdone : s.pass = .done) :
    Complete total s := by
  have hpass := h.pass
  unfold PassInv at hpass
  rw [hdone] at hpass
  obtain ⟨hended, hqueue, hsorted⟩ := hpass
  obtain ⟨hhanded, hprocessed⟩ := h.handed_eq hended
  have hdirs := h.directories
  rw [hdone, hqueue, hended.walker, hended.nodeQueue, hhanded] at hdirs
  refine ⟨.of_eq hhanded, hprocessed, ?_, hsorted⟩
  simpa [Pass.directories, Walker.ahead] using hdirs

theorem Extraction.Inv.processed_of_restored (h : s.Inv trees total) (hrestored : s.restored ≠ []) :
    s.processed.Perm total := by
  have hpass := h.pass
  unfold PassInv at hpass
  split at hpass
  · exact absurd hpass hrestored
  · exact absurd hpass.2 hrestored
  · exact (h.handed_eq hpass.1).2
  · exact (h.handed_eq hpass.1).2

theorem Extraction.Inv.of_run {dest : Bytes} {root : ID} {ls : List ExtractEvent}
    (hwalks : Walks trees [(dest, root)] total)
    (hrun : Run (ExtractStep trees workers) (startExtraction dest root) ls s) : s.Inv trees total :=
  hrun.invariant (fun _ _ _ h hstep => h.step hstep) (.start hwalks)

theorem dirItems_perm {items items' : List Item} (h : items.Perm items') :
    (dirItems items).Perm (dirItems items') :=
  (h.filter _).map _

/-- The walker sends the nodes of the bundle. -/
theorem Within.exists_walks {depth : Nat} {root : ID} (h : trees.Within depth root) (dest : Bytes) :
    ∃ total, total.Perm (nodesBelow trees depth dest root) ∧ Walks trees [(dest, root)] total := by
  obtain ⟨items, hperm, hwalks⟩ := h.walks dest .nil
  exact ⟨items, hperm, by rwa [List.append_nil] at hwalks⟩

/-- With room for every directory, the extraction completes. -/
theorem completes_of_le {depth : Nat} {root : ID} {dest : Bytes} (hdepth : trees.Within depth root)
    (hle : (dirItems (nodesBelow trees depth dest root)).length ≤ channelCapacity) :
    Completes trees workers dest root (nodesBelow trees depth dest root) := by
  obtain ⟨total, hperm, hwalks⟩ := hdepth.exists_walks dest
  have htotal := (dirItems_perm hperm).length_eq.trans_le hle
  intro ls s hrun
  have hinv := Extraction.Inv.of_run hwalks hrun
  refine ⟨hinv.canStep htotal, fun hdone => ?_, fun hrestored => ?_⟩
  · obtain ⟨hhanded, hprocessed, hrestored, hsorted⟩ := hinv.complete hdone
    exact ⟨hhanded.trans hperm, hprocessed.trans hperm, hrestored.trans (dirItems_perm hperm), hsorted⟩
  · exact (hinv.processed_of_restored hrestored).trans hperm

/-- An extraction that completes has sent every directory before the first one was received. -/
theorem le_of_completes {depth : Nat} {root : ID} {dest : Bytes} (hdepth : trees.Within depth root)
    (h : Completes trees workers dest root (nodesBelow trees depth dest root)) :
    (dirItems (nodesBelow trees depth dest root)).length ≤ channelCapacity := by
  obtain ⟨total, hperm, hwalks⟩ := hdepth.exists_walks dest
  obtain ⟨-, s, -, ⟨hinv, -⟩, hdone⟩ := exists_final_run
    (fun s => s.Inv trees total ∧
      ∃ ls, Run (ExtractStep trees workers) (startExtraction dest root) ls s)
    (fun s => s.pass = .done) (Extraction.measure total)
    (fun s l t ⟨hinv, ls, hrun⟩ hstep =>
      ⟨⟨hinv.step hstep, _, hrun.snoc hstep⟩, hinv.measure_lt hstep⟩)
    (fun s ⟨_, ls, hrun⟩ hfinal => (h ls s hrun).1 hfinal) ⟨.start hwalks, [], .nil⟩
  have hpass := hinv.pass
  unfold Extraction.PassInv at hpass
  rw [hdone] at hpass
  exact (dirItems_perm hperm).length_eq.symm.trans_le (hinv.bounded hpass.1.walker)

/-- **An extraction completes on every schedule exactly when the bundle has no more directories than
fit into their channel.** -/
theorem extraction_completes_iff {depth : Nat} {root : ID} (dest : Bytes)
    (hdepth : trees.Within depth root) :
    Completes trees workers dest root (nodesBelow trees depth dest root) ↔
      (dirItems (nodesBelow trees depth dest root)).length ≤ channelCapacity :=
  ⟨le_of_completes hdepth, completes_of_le hdepth⟩

end BundleTrees

/-- 4097 empty directories with different names. -/
def wideNodes : List Node :=
  (List.range 4097).map fun i =>
    { name := String.ofList [Char.ofNat (97 + i / 676), Char.ofNat (97 + i / 26 % 26),
        Char.ofNat (97 + i % 26)], nodeType := .directory }

/-- A bundle with these directories only. -/
def wideTrees : BundleTrees where
  load := fun id => if id = 1 then some wideNodes else none
  hasSymlinkInfo := fun _ => false

theorem subtree_of_mem_wideNodes {node : Node} (h : node ∈ wideNodes) :
    BundleTrees.subtree node = none := by
  obtain ⟨i, -, rfl⟩ := List.mem_map.mp h
  rfl

theorem load_wideTrees : wideTrees.load 1 = some wideNodes := by
  simp [wideTrees]

theorem within_wideTrees : wideTrees.Within 1 1 := by
  intro nodes node t' hload hmem hsub
  have hnodes : wideNodes = nodes := Option.some.inj (load_wideTrees.symm.trans hload)
  rw [← hnodes] at hmem
  rw [subtree_of_mem_wideNodes hmem] at hsub
  cases hsub

theorem length_dirItems_wideTrees (dest : Bytes) :
    (BundleTrees.dirItems (wideTrees.nodesBelow 1 dest 1)).length = 4097 := by
  have hitems : wideTrees.nodesBelow 1 dest 1 = BundleTrees.sentFrom dest wideNodes := by
    rw [BundleTrees.nodesBelow, load_wideTrees, Option.getD_some, BundleTrees.sentFrom,
      List.map_eq_flatMap]
    refine List.flatMap_congr fun node hmem => ?_
    rw [subtree_of_mem_wideNodes hmem]
    rfl
  have hdirs : ∀ item ∈ BundleTrees.sentFrom dest wideNodes, item.2.isDir = true := by
    intro item hitem
    obtain ⟨node, hmem, rfl⟩ := List.mem_map.mp hitem
    obtain ⟨i, -, rfl⟩ := List.mem_map.mp hmem
    rfl
  rw [hitems, BundleTrees.dirItems, List.filter_eq_self.mpr hdirs, List.length_map,
    BundleTrees.sentFrom, List.length_map, wideNodes, List.length_map, List.length_range]

/-- The extraction of 4097 directories with four workers gets stuck. -/
theorem extraction_gets_stuck :
    ¬ wideTrees.Completes 4 [0x2f, 0x64] 1 (wideTrees.nodesBelow 1 [0x2f, 0x64] 1) := by
  intro h
  have hle := BundleTrees.le_of_completes within_wideTrees h
  rw [length_dirItems_wideTrees] at hle
  exact absurd hle (by decide)

/-- A bundle with the directory `a`, the directory `a/b` and a file in each of them and in the root. -/
def nestedBundle : BundleTrees where
  load := fun id =>
    if id = 1 then some [{ name := "a", nodeType := .directory, tree := some 2 }, { name := "x" }]
    else if id = 2 then some [{ name := "b", nodeType := .directory, tree := some 3 }, { name := "y" }]
    else if id = 3 then some [{ name := "z" }]
    else none
  hasSymlinkInfo := fun _ => false

theorem within_nestedBundle : nestedBundle.Within 3 1 := by
  -- the subtrees of the three trees
  have hroot : ∀ nodes node t', nestedBundle.load 1 = some nodes → node ∈ nodes →
      BundleTrees.subtree node = some t' → t' = 2 := by
    rintro nodes node t' ⟨⟩ hmem hsub
    simp only [List.mem_cons, List.not_mem_nil, or_false] at hmem
    rcases hmem with rfl | rfl <;> cases hsub
    rfl
  have hmiddle : ∀ nodes node t', nestedBundle.load 2 = some nodes → node ∈ nodes →
      BundleTrees.subtree node = some t' → t' = 3 := by
    rintro nodes node t' ⟨⟩ hmem hsub
    simp only [List.mem_cons, List.not_mem_nil, or_false] at hmem
    rcases hmem with rfl | rfl <;> cases hsub
    rfl
  intro nodes node t' hload hmem hsub
  rw [hroot nodes node t' hload hmem hsub]
  intro nodes node t' hload hmem hsub
  rw [hmiddle nodes node t' hload hmem hsub]
  rintro nodes node t' ⟨⟩ hmem hsub
  rw [List.mem_singleton.mp hmem] at hsub
  cases hsub

theorem extraction_completes_iff_nested :
    nestedBundle.Completes 4 [0x2f, 0x64] 1 (nestedBundle.nodesBelow 3 [0x2f, 0x64] 1) := by
  rw [BundleTrees.extraction_completes_iff [0x2f, 0x64] within_nestedBundle]
  decide +kernel

end Mapache
