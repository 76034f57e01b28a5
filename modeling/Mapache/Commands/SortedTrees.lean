import Mapache.Commands.Snapshot
import Mapache.Fs.Names

/-!
# The order of the nodes in a stored tree

`find_serialized_node` looks a name up by binary search, and the comparison of two stored trees
merges them by name: both rely on trees whose names increase. `finalize_and_save` looks for two
neighbours of the same name among the children of a directory in the order in which they arrived,
and `Tree::save_to_store` sorts them afterwards. Two entries whose names become equal under
`to_string_lossy` are both stored when another one arrives between them.

`PendingTree.increasing_iff` says which directories are stored in increasing order, and
`saved_trees_increase` that every tree of a run is, if all its directories are of this kind. Both
searches then find every node: the order of the names is the order of their bytes, which the merge
goes by.
-/

set_option autoImplicit false

namespace Mapache

open Lib

/-! ## Looking up a name -/

/-- `slice::binary_search_by` with the names of the nodes, followed by the access. With several
matches any one of them may be returned. -/
structure NameSearch where
  find : List Node → String → Option Node
  sound : ∀ {nodes name node}, find nodes name = some node → node ∈ nodes ∧ node.name = name
  complete : ∀ {nodes : List Node} {node : Node}, nodes.Pairwise (fun a b => a.name ≤ b.name) →
    node ∈ nodes → (find nodes node.name).isSome = true

/-- In a tree whose names increase, every node is found by its name. -/
theorem NamesIncrease.find_eq {nodes : List Node} (h : NamesIncrease nodes) (search : NameSearch)
    {node : Node} (hnode : node ∈ nodes) : search.find nodes node.name = some node := by
  have hsorted : nodes.Pairwise fun a b => a.name ≤ b.name := h.imp fun hlt => le_of_lt hlt
  obtain ⟨found, hfound⟩ := Option.isSome_iff_exists.mp (search.complete hsorted hnode)
  obtain ⟨hmem, hname⟩ := search.sound hfound
  -- two nodes of the same name are the same
  have hnodup : (nodes.map Node.name).Nodup :=
    List.pairwise_map.mpr (h.imp fun hlt => ne_of_lt hlt)
  rw [hfound, List.inj_on_of_nodup_map hnodup hmem hnode hname]

/-! ## One directory -/

namespace PendingTree

/-- The names of the children are distinct, or `finalize_and_save` returns an error: there are more
children than expected, or two that arrived one after the other have the same name. -/
def NamesTold (tree : PendingTree) : Prop :=
  (tree.children.map Node.name).Nodup ∨ tree.isValid = false

/-- The nodes that a directory may be stored with. -/
def StoredAs (tree : PendingTree) (nodes : List Node) : Prop :=
  tree.isValid = true ∧ nodes.Perm tree.children ∧ nodes.Pairwise (fun a b => a.name ≤ b.name)

theorem exists_storedAs {tree : PendingTree} (hvalid : tree.isValid = true) :
    ∃ nodes, tree.StoredAs nodes := by
  refine ⟨tree.children.mergeSort fun a b => decide (a.name ≤ b.name), hvalid,
    List.mergeSort_perm _ _, ?_⟩
  refine (List.pairwise_mergeSort ?_ ?_ tree.children).imp fun h => of_decide_eq_true h
  · intro a b c hab hbc
    rw [decide_eq_true_iff] at hab hbc ⊢
    exact hab.trans hbc
  · intro a b
    rw [Bool.or_eq_true, decide_eq_true_iff, decide_eq_true_iff]
    exact le_total _ _

theorem StoredAs.increase_iff {tree : PendingTree} {nodes : List Node} (h : tree.StoredAs nodes) :
    NamesIncrease nodes ↔ (tree.children.map Node.name).Nodup := by
  obtain ⟨-, hperm, hsorted⟩ := h
  rw [← (hperm.map Node.name).nodup_iff]
  constructor
  · intro hinc
    exact List.pairwise_map.mpr (hinc.imp fun hlt => ne_of_lt hlt)
  · intro hnodup
    have hne : nodes.Pairwise fun a b => a.name ≠ b.name := List.pairwise_map.mp hnodup
    exact (hsorted.and hne).imp fun hab => lt_of_le_of_ne hab.1 hab.2

/-- **Which directories are stored in increasing order**: those that are refused, and those whose
children have distinct names. -/
theorem increasing_iff (tree : PendingTree) :
    (∀ nodes, tree.StoredAs nodes → NamesIncrease nodes) ↔ tree.NamesTold := by
  constructor
  · intro h
    by_cases hvalid : tree.isValid = true
    · obtain ⟨nodes, hnodes⟩ := exists_storedAs hvalid
      exact Or.inl (hnodes.increase_iff.mp (h nodes hnodes))
    · exact Or.inr (Bool.eq_false_iff.mpr hvalid)
  · rintro (hnodup | hinvalid) nodes hnodes
    · exact hnodes.increase_iff.mpr hnodup
    · rw [hnodes.1] at hinvalid
      cases hinvalid

end PendingTree

/-! ## The archiver -/

section Archiver

variable {ρ : Type} {n : Nat} {env : Env} {codec : TreeCodec}

/-- A tree about to be stored passed the checks and its names are distinct; one that is being stored
has increasing names. -/
def SerializerPhase.Increasing : SerializerPhase → Prop
  | .saving _ tree => tree.isValid = true ∧ tree.NamesTold
  | .storing _ _ nodes => NamesIncrease nodes
  | _ => True

/-- The directory that the serializer finds complete has told names. -/
def Archiver.NamesTold (a : Archiver ρ) : Prop :=
  ∀ path ts tree, a.phase = .finalizing path → a.serializer.takeComplete path = some (ts, tree) →
    tree.NamesTold

theorem SerializerPhase.Increasing.noteTree {a : Archiver ρ} {o : CallOutcome}
    (h : a.phase.Increasing) : (a.noteTree o).phase.Increasing := by
  unfold Archiver.noteTree
  split
  · split <;> trivial
  · trivial
  · exact h

/-- **A step of the archiver** that finds only directories with told names. -/
theorem SerializerPhase.Increasing.step [DecidableEq ρ] {b : Backend} {a a' : Archiver ρ}
    {p p' : Pipe (Option ρ) n} {l : Option (PipeEvent (Option ρ))} (h : a.phase.Increasing)
    (htold : a.NamesTold) (hstep : Archiver.Step env codec b a p l a' p') : a'.phase.Increasing := by
  cases hstep with
  | @complete path ts tree hphase htake =>
    dsimp only
    split
    · rename_i hvalid
      exact ⟨hvalid, htold path ts tree hphase htake⟩
    · trivial
  | @save _ path tree nodes bytes hphase hperm hsorted hvec hcall =>
    rw [hphase] at h
    exact tree.increasing_iff.mpr h.2 nodes ⟨h.1, hperm, hsorted⟩
  | @caller _ k hcall =>
    -- a thread of the pool does not touch the serializer
    unfold Archiver.noteChunk
    split <;> exact h
  | treeCaller hcall => exact h.noteTree
  | receive | receiveFail | incomplete | saveFail | finalizeRoot => trivial
  | loadPrev | unchanged | inline | begin | chunk | finish | skip | drop => exact h

/-- The archiver of a client. -/
def Client.archiver? : Client ρ n → Option (Archiver ρ)
  | .running _ _ a _ => some a
  | _ => none

theorem Client.increasing_step [DecidableEq ρ] {b b' : Backend} {c c' : Client ρ n} {e : ClientEvent ρ}
    (h : ∀ a, c.archiver? = some a → a.phase.Increasing)
    (htold : ∀ a, c.archiver? = some a → a.NamesTold) (hstep : Client.Step env codec b c e b' c') :
    ∀ a, c'.archiver? = some a → a.phase.Increasing := by
  intro a' ha'
  cases hstep with
  | resolve => cases ha'
  | reload =>
    cases ha'
    trivial
  | @archive parent phase a a'' p p' l harch =>
    cases ha'
    exact (h a rfl).step (htold a rfl) harch
  | saver | worker | archived | archiveFail | flush | flushed | fail | skip | save | saveFail =>
    exact h a' ha'

end Archiver

/-! ## Runs -/

section Runs

variable {ι ρ : Type} {n : ι → Nat} [DecidableEq ι] [DecidableEq ρ] {env : Env} {codec : TreeCodec}

/-- Every directory that a client is about to finish has told names. -/
def SnapshotSystem.NamesTold (s : SnapshotSystem ι ρ n) (_ : ι × ClientEvent ρ) : Prop :=
  ∀ i a, (s.clients i).archiver? = some a → a.NamesTold

/-- What the clients are storing has increasing names. -/
def SnapshotSystem.Increasing (s : SnapshotSystem ι ρ n) : Prop :=
  ∀ i a, (s.clients i).archiver? = some a → a.phase.Increasing

/-- What a client stores has increasing names. -/
theorem namesIncrease_of_run {s₀ s : SnapshotSystem ι ρ n} {ls : List (ι × ClientEvent ρ)}
    (hstart : ∀ i, s₀.clients i = .resolving)
    (hrun : Run (Guarded (SnapshotSystem.Step env codec) SnapshotSystem.NamesTold) s₀ ls s) {i : ι}
    {a : Archiver ρ} {path : Path} {tree : PendingTree} {nodes : List Node}
    (ha : (s.clients i).archiver? = some a) (hphase : a.phase = .storing path tree nodes) :
    NamesIncrease nodes := by
  have hinv : s.Increasing := by
    refine hrun.invariant ?_ ?_
    · rintro s l t hs ⟨hstep, htold⟩
      cases hstep with
      | @client i e b' c' hclient =>
        intro j
        by_cases heq : j = i
        · subst heq
          simp only [Function.update_self]
          exact Client.increasing_step (hs j) (htold j) hclient
        · simp only [Function.update_of_ne heq]
          exact hs j
    · intro i a ha
      rw [hstart i] at ha
      cases ha
  have h := hinv i a ha
  rw [hphase] at h
  exact h

variable (ρ n env codec)

/-- Some run of clients that finishes only directories with told names stores these nodes. -/
def StoredInRun (nodes : List Node) : Prop :=
  ∃ (s₀ s : SnapshotSystem ι ρ n) (ls : List (ι × ClientEvent ρ)),
    (∀ i, s₀.clients i = .resolving) ∧
    Run (Guarded (SnapshotSystem.Step env codec) SnapshotSystem.NamesTold) s₀ ls s ∧
    ∃ i a path tree, (s.clients i).archiver? = some a ∧ a.phase = .storing path tree nodes

/-- A tree that was stored level by level. The names are those of directory entries, which are single
components. -/
inductive SavedTree (load : ID → Except StreamError (List Node)) : ID → Prop where
  | mk {id : ID} {nodes : List Node} : load id = .ok nodes → StoredInRun ρ n env codec nodes →
      (∀ node ∈ nodes, SingleNormal node.nameBytes) →
      (∀ node ∈ nodes, ∀ sub, node.tree = some sub → SavedTree load sub) → SavedTree load id

variable {ρ n env codec}

/-- The merge can rely on the order of the names. -/
theorem SavedTree.storedTree {load : ID → Except StreamError (List Node)} {id : ID}
    (h : SavedTree ρ n env codec load id) : StoredTree load id := by
  induction h with
  | mk hload hstored hnormal _ ih =>
    obtain ⟨s₀, s, ls, hstart, hrun, i, a, path, tree, ha, hphase⟩ := hstored
    have hinc := namesIncrease_of_run hstart hrun ha hphase
    exact .mk hload (hinc.imp fun hlt => nameBytes_lt_iff.mpr hlt) hnormal ih

/-- **Every tree that a run stores has increasing names**, and a search by name finds each of its
nodes. This holds in every run of any number of clients that finishes only directories whose
children have distinct names or are refused. The difference of two trees that such runs have stored
finds every node of both. -/
theorem saved_trees_increase (search : NameSearch) {s₀ s : SnapshotSystem ι ρ n}
    {ls : List (ι × ClientEvent ρ)} (hstart : ∀ i, s₀.clients i = .resolving)
    (hrun : Run (Guarded (SnapshotSystem.Step env codec) SnapshotSystem.NamesTold) s₀ ls s) :
    (∀ i a path tree nodes, (s.clients i).archiver? = some a → a.phase = .storing path tree nodes →
      NamesIncrease nodes ∧ ∀ node ∈ nodes, search.find nodes node.name = some node) ∧
    ∀ load src tgt, SavedTree ρ n env codec load src → SavedTree ρ n env codec load tgt →
      ∃ state items, DiffOf load src tgt state items := by
  constructor
  · intro i a path tree nodes ha hphase
    have hinc := namesIncrease_of_run hstart hrun ha hphase
    exact ⟨hinc, fun node hnode => hinc.find_eq search hnode⟩
  · intro load src tgt hsrc htgt
    exact hsrc.storedTree.diff htgt.storedTree

end Runs

section Sample

open SnapshotSystem Client

/-- A linear search. -/
def linearNameSearch : NameSearch where
  find nodes name := nodes.find? fun node => node.name = name
  sound := by
    intro nodes name node h
    have hname := List.find?_some h
    exact ⟨List.mem_of_find?_eq_some h, of_decide_eq_true hname⟩
  complete := by
    intro nodes node _ hnode
    exact List.find?_isSome.mpr ⟨node, hnode, decide_eq_true rfl⟩

/-- A pipe in the root directory with the given name. -/
def samplePipe (name : Bytes) : Path × StreamNode :=
  ([.rootDir, .normal name], ⟨{ name := toStringLossy name, nodeType := .fifo }, 0⟩)

theorem inline_samplePipe {codec : TreeCodec} {a : Archiver Unit} {p : Pipe (Option Unit) 1}
    {b : Backend} (name : Bytes) :
    Archiver.Step sampleEnv codec b a p none (a.emit (samplePipe name).1 (samplePipe name).2) p :=
  .inline ⟨rfl, rfl⟩ rfl

/-- Two directories of pipes: `a` and `b`, and `b` and `c`. -/
def pipeNodes (first second : UInt8) : List Node :=
  [(samplePipe [first]).2.node, (samplePipe [second]).2.node]

def pipeCodec : TreeCodec := .ofList [pipeNodes 0x61 0x62, pipeNodes 0x62 0x63]

/-- A client stores a directory of two pipes, which arrive in the other order. -/
theorem exists_run_storing (first second : UInt8) {bytes : Bytes}
    (hvec : pipeCodec.toVec (pipeNodes first second) = some bytes)
    (hlt : toStringLossy [first] < toStringLossy [second]) :
    ∃ ls s,
      Run (Guarded (SnapshotSystem.Step sampleEnv pipeCodec) SnapshotSystem.NamesTold)
        (solo emptyBackend .resolving) ls s ∧
      ∃ a tree, (s.clients ()).archiver? = some a ∧
        a.phase = .storing [.rootDir] tree (pipeNodes first second) := by
  have hne : toStringLossy [second] ≠ toStringLossy [first] := ne_of_gt hlt
  -- what the serializer finishes has distinct names
  have snoc : ∀ {s₀ : SnapshotSystem Unit Unit (fun _ => 1)} {ls : List (Unit × ClientEvent Unit)}
      {b b' : Backend} {c c' : Client Unit 1} {e : ClientEvent Unit},
      Run (Guarded (SnapshotSystem.Step sampleEnv pipeCodec) SnapshotSystem.NamesTold) s₀ ls
        (solo b c) →
      Client.Step sampleEnv pipeCodec b c e b' c' →
      (∀ a path ts tree, c.archiver? = some a → a.phase = .finalizing path →
        a.serializer.takeComplete path = some (ts, tree) → (tree.children.map Node.name).Nodup) →
      Run (Guarded (SnapshotSystem.Step sampleEnv pipeCodec) SnapshotSystem.NamesTold) s₀
        (ls ++ [((), e)]) (solo b' c') := by
    intro s₀ ls b b' c c' e h hstep hnodup
    have hsolo : solo b' c' = ⟨b', Function.update (solo b c).clients () c'⟩ := by
      unfold solo
      congr 1
    rw [hsolo]
    exact h.snoc ⟨.client hstep, fun i a ha path ts tree hphase htake =>
      Or.inl (hnodup a path ts tree ha hphase htake)⟩
  have h₀ : Run (Guarded (SnapshotSystem.Step sampleEnv pipeCodec) SnapshotSystem.NamesTold)
    (solo emptyBackend .resolving) [] _ := .nil
  have h₁ := snoc h₀ (.resolve none fun _ h => by cases h) fun a _ _ _ ha => by cases ha
  have h₂ := snoc h₁ (.reload emptyInstances [.rootDir] (2, [])) fun a _ _ _ ha => by cases ha
  have h₃ := snoc h₂ (.archive (inline_samplePipe [second])) fun a _ _ _ ha hphase => by
    cases ha
    cases hphase
  have h₄ := snoc h₃ (.archive (inline_samplePipe [first])) fun a _ _ _ ha hphase => by
    cases ha
    cases hphase
  have h₅ := snoc h₄ (.archive (.receive rfl rfl rfl)) fun a _ _ _ ha hphase => by
    cases ha
    cases hphase
  have h₆ := snoc h₅ (.archive (.incomplete rfl rfl)) fun a _ _ _ ha hphase htake => by
    cases ha
    cases hphase
    cases htake
  have h₇ := snoc h₆ (.archive (.receive rfl rfl rfl)) fun a _ _ _ ha hphase => by
    cases ha
    cases hphase
  have h₈ := snoc h₇ (.archive (.complete rfl rfl)) fun a _ _ _ ha hphase htake => by
    cases ha
    cases hphase
    cases htake
    show [toStringLossy [second], toStringLossy [first]].Nodup
    simp [hne]
  have hvalid : PendingTree.isValid { node := none, numExpectedChildren := .known 2, children :=
      [(samplePipe [second]).2.node, (samplePipe [first]).2.node] } = true := by
    simp [PendingTree.isValid, PendingTree.hasAdjacentDuplicate, samplePipe, hne]
  have h₉ := snoc h₈ (.archive (.save (if_pos hvalid) (.swap _ _ _)
    (List.pairwise_pair.mpr (le_of_lt hlt)) hvec (.call _ _ _ rfl))) fun a _ _ _ ha hphase => by
      cases ha
      cases (if_pos hvalid).symm.trans hphase
  exact ⟨_, _, h₉, _, _, rfl, rfl⟩

/-- Pipes have no trees. -/
theorem tree_of_mem_pipeNodes {first second : UInt8} {node : Node}
    (hnode : node ∈ pipeNodes first second) : node.tree = none := by
  rcases List.mem_pair.mp hnode with rfl | rfl <;> rfl

/-- What a repository with the two directories reads. -/
def pipeLoad (id : ID) : Except StreamError (List Node) :=
  if id = 1 then .ok (pipeNodes 0x61 0x62)
  else if id = 2 then .ok (pipeNodes 0x62 0x63)
  else .error (.other "not in index")

theorem sample_saved_tree : ∃ (s : SnapshotSystem Unit Unit (fun _ => 1)) (a : Archiver Unit)
    (tree : PendingTree), (s.clients ()).archiver? = some a ∧
      a.phase = .storing [.rootDir] tree (pipeNodes 0x61 0x62) ∧
      NamesIncrease (pipeNodes 0x61 0x62) ∧
      (∀ node ∈ pipeNodes 0x61 0x62,
        linearNameSearch.find (pipeNodes 0x61 0x62) node.name = some node) ∧
      ∃ state items, DiffOf pipeLoad 1 2 state items := by
  obtain ⟨ls, s, hrun, a, tree, ha, hphase⟩ := exists_run_storing 0x61 0x62
    (show pipeCodec.toVec _ = some [] by decide) (by decide)
  obtain ⟨ls', s', hrun', a', tree', ha', hphase'⟩ := exists_run_storing 0x62 0x63
    (show pipeCodec.toVec _ = some [0] by decide) (by decide)
  obtain ⟨hstored, hdiff⟩ := saved_trees_increase linearNameSearch (fun _ => rfl) hrun
  obtain ⟨hinc, hfind⟩ := hstored () a _ tree _ ha hphase
  have hfirst : SavedTree Unit (fun _ : Unit => 1) sampleEnv pipeCodec pipeLoad 1 :=
    .mk rfl ⟨_, _, _, fun _ => rfl, hrun, (), a, _, tree, ha, hphase⟩ (by decide)
      fun _ hnode _ htree => by
        rw [tree_of_mem_pipeNodes hnode] at htree
        cases htree
  have hsecond : SavedTree Unit (fun _ : Unit => 1) sampleEnv pipeCodec pipeLoad 2 :=
    .mk rfl ⟨_, _, _, fun _ => rfl, hrun', (), a', _, tree', ha', hphase'⟩ (by decide)
      fun _ hnode _ htree => by
        rw [tree_of_mem_pipeNodes hnode] at htree
        cases htree
  exact ⟨s, a, tree, ha, hphase, hinc, hfind, hdiff _ _ _ hfirst hsecond⟩

/-- The tree of a directory with the entries `a` FE, `a` FE `b` and `a` FF. -/
def collidingNodes : List Node :=
  [(samplePipe [0x61, 0xfe]).2.node, (samplePipe [0x61, 0xff]).2.node,
    (samplePipe [0x61, 0xfe, 0x62]).2.node]

/-- The one tree is that of the directory. -/
def collidingCodec : TreeCodec := .single collidingNodes [1]

/-- **Two entries of the same name are stored.** The entries arrive in the order of their names, and
the first and the last one become equal. -/
theorem colliding_names_are_stored :
    ∃ ls s, Run (SnapshotSystem.Step sampleEnv collidingCodec) (solo emptyBackend .resolving) ls s ∧
      ∃ a tree, (s.clients ()).archiver? = some a ∧
        a.phase = .storing [.rootDir] tree collidingNodes ∧ ¬ NamesIncrease collidingNodes := by
  have h₀ : Run (SnapshotSystem.Step sampleEnv collidingCodec) (solo emptyBackend .resolving) [] _ :=
    .nil
  have hvec : collidingCodec.toVec collidingNodes = some [1] := TreeCodec.toVec_single
  have h₁ := solo_snoc h₀ (.resolve none fun _ h => by cases h)
  have h₂ := solo_snoc h₁ (.reload emptyInstances [.rootDir] (3, []))
  -- the stream emits the entries in the order of their names
  have h₃ := solo_snoc h₂ (.archive (inline_samplePipe [0x61, 0xfe]))
  have h₄ := solo_snoc h₃ (.archive (inline_samplePipe [0x61, 0xfe, 0x62]))
  have h₅ := solo_snoc h₄ (.archive (inline_samplePipe [0x61, 0xff]))
  -- the serializer takes them in this order
  have a₁ := solo_snoc h₅ (.archive (.receive rfl rfl rfl))
  have a₂ := solo_snoc a₁ (.archive (.incomplete rfl rfl))
  have a₃ := solo_snoc a₂ (.archive (.receive rfl rfl rfl))
  have a₄ := solo_snoc a₃ (.archive (.incomplete rfl rfl))
  have a₅ := solo_snoc a₄ (.archive (.receive rfl rfl rfl))
  have a₆ := solo_snoc a₅ (.archive (.complete rfl rfl))
  have a₇ := solo_snoc a₆ (.archive (.save rfl (.cons _ (.swap _ _ _)) (by decide) hvec
    (.call _ _ _ rfl)))
  refine ⟨_, _, a₇, _, _, rfl, rfl, ?_⟩
  unfold NamesIncrease
  decide

end Sample

end Mapache
