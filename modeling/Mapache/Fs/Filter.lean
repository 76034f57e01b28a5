import Mapache.Fs.Glob
import Mapache.Fs.Walk
import Mapache.Lib.Trie

/-!
# The path filter

`PathTrie` and `PathFilter` of `fs/filter.rs`. A trie holds the paths that were inserted
(`PathTrie.holds_ofPaths`), whatever the indices of its nodes, and after `finalize` a node knows
whether a path ends at or below it (`PathTrie.finalize_spec`).

`allow_iff` says what the filter allows, and `allow_of_le` that with a path it allows the paths
above it: a traversal that goes down from allowed directories only sees every allowed path
(`sees_of_allow`). This is what the traversals assume of their filter, and `toPathFilter` hands them
this one.
-/

set_option autoImplicit false

namespace Mapache.Filter

open Lib

/-! ## The trie -/

/-- `TrieNode`. -/
structure TrieNode where
  children : Table Bytes Nat := ∅
  terminal : Bool := false
  subtreeHasTerminal : Bool := false

/-- `PathTrie`. Node 0 is the root. -/
structure PathTrie where
  nodes : List TrieNode

namespace PathTrie

/-- The child of a node under a component. -/
def child (nodes : List TrieNode) (i : Nat) (key : Bytes) : Option Nat :=
  (nodes[i]?).bind fun node => node.children.lookup key

def terminal (nodes : List TrieNode) (i : Nat) : Bool := ((nodes[i]?).map TrieNode.terminal).getD false

def hasTerminal (nodes : List TrieNode) (i : Nat) : Bool :=
  ((nodes[i]?).map TrieNode.subtreeHasTerminal).getD false

/-- `PathTrie::with_capacity`. -/
def withCapacity : PathTrie := ⟨[{}]⟩

/-- Push a node and make it a child of `cur`. -/
def pushChild (nodes : List TrieNode) (cur : Nat) (key : Bytes) : List TrieNode :=
  (nodes ++ [({} : TrieNode)]).modify cur fun node => { node with children := node.children.insert key nodes.length }

/-- The loop of `insert` over the components, with the nodes and `cur` at its end. -/
def insertLoop : List TrieNode → Nat → List Bytes → List TrieNode × Nat
  | nodes, cur, [] => (nodes, cur)
  | nodes, cur, key :: comps =>
    match child nodes cur key with
    | some next => insertLoop nodes next comps
    | none => insertLoop (pushChild nodes cur key) nodes.length comps

/-- Mark a node as terminal. -/
def markTerminal (nodes : List TrieNode) (cur : Nat) : List TrieNode :=
  nodes.modify cur fun node => { node with terminal := true }

/-- `PathTrie::insert`. -/
def insert (t : PathTrie) (path : Path) : PathTrie :=
  let (nodes, cur) := insertLoop t.nodes 0 (osComponents path)
  ⟨markTerminal nodes cur⟩

/-- A round of `finalize`. -/
def finalizeNode (nodes : List TrieNode) (i : Nat) : List TrieNode :=
  nodes.modify i fun node =>
    { node with
      subtreeHasTerminal := node.terminal ||
        (Table.toList node.children).any fun c => hasTerminal nodes c.2 }

/-- `PathTrie::finalize`. -/
def finalize (t : PathTrie) : PathTrie :=
  ⟨(List.range t.nodes.length).reverse.foldl finalizeNode t.nodes⟩

/-- A trie with the paths, as `PathFilter::new` makes it. -/
def ofPaths (paths : List Path) : PathTrie := (paths.foldl insert withCapacity).finalize

/-- The loop of `contains_prefix_of`. -/
def prefixLoop (nodes : List TrieNode) : Nat → List Bytes → Bool
  | cur, [] => terminal nodes cur
  | cur, comp :: comps =>
    if terminal nodes cur then true
    else
      match child nodes cur comp with
      | some next => prefixLoop nodes next comps
      | none => false

/-- `PathTrie::contains_prefix_of`. -/
def containsPrefixOf (t : PathTrie) (path : Path) : Bool := prefixLoop t.nodes 0 (osComponents path)

/-- The loop of `matches_include_semantics`. -/
def includeLoop (nodes : List TrieNode) : Nat → List Bytes → Bool
  | cur, [] => if terminal nodes cur then true else hasTerminal nodes cur
  | cur, comp :: comps =>
    if terminal nodes cur then true
    else
      match child nodes cur comp with
      | some next => includeLoop nodes next comps
      | none => false

/-- `PathTrie::matches_include_semantics`. -/
def matchesIncludeSemantics (t : PathTrie) (path : Path) : Bool :=
  includeLoop t.nodes 0 (osComponents path)

/-! ### What a trie holds -/

/-- The components lead to a terminal node. -/
def Holds (nodes : List TrieNode) (i : Nat) (comps : List Bytes) : Prop :=
  ∃ j, Trie.walk (child nodes) i comps = some j ∧ terminal nodes j = true

/-- The nodes form a trie. -/
structure WF (nodes : List TrieNode) : Prop where
  root : 0 < nodes.length
  edges : Trie.WF (child nodes) nodes.length

section Insert

variable {nodes : List TrieNode} {cur i j : Nat} {key : Bytes} {comps comps' done : List Bytes}

theorem terminal_of_le (h : nodes.length ≤ i) : terminal nodes i = false := by
  rw [terminal, List.getElem?_eq_none h]
  rfl

/-- The edges after a node was pushed. -/
theorem child_pushChild (hcur : cur < nodes.length) :
    child (pushChild nodes cur key) = Trie.addEdge (child nodes) nodes.length cur key := by
  funext i k
  rw [child, pushChild, List.getElem?_modify, Trie.addEdge]
  by_cases hi : cur = i
  · subst hi
    rw [List.getElem?_append_left hcur, List.getElem?_eq_getElem hcur]
    simp only [Option.map_eq_map, if_true, Option.map_some, Option.bind_some,
      Table.lookup_insert_eq_ite, true_and]
    split
    · rfl
    · rw [child, List.getElem?_eq_getElem hcur, Option.bind_some]
  · simp only [hi, if_false]
    rw [if_neg fun h => hi h.1.symm, child]
    by_cases hlt : i < nodes.length
    · rw [List.getElem?_append_left hlt]
      cases nodes[i]? <;> rfl
    · rw [List.getElem?_append_right (not_lt.mp hlt), List.getElem?_eq_none (not_lt.mp hlt)]
      cases hsub : i - nodes.length with
      | zero => rfl
      | succ n => rfl

theorem terminal_pushChild (hcur : cur < nodes.length) :
    terminal (pushChild nodes cur key) i = terminal nodes i := by
  rw [terminal, terminal, pushChild, List.getElem?_modify]
  by_cases hlt : i < nodes.length
  · rw [List.getElem?_append_left hlt, List.getElem?_eq_getElem hlt]
    by_cases hi : cur = i <;> simp [hi]
  · have hi : cur ≠ i := by omega
    simp only [hi, if_false]
    rw [List.getElem?_append_right (not_lt.mp hlt), List.getElem?_eq_none (not_lt.mp hlt)]
    cases hsub : i - nodes.length with
    | zero => rfl
    | succ n => rfl

theorem length_pushChild : (pushChild nodes cur key).length = nodes.length + 1 := by
  rw [pushChild, List.length_modify, List.length_append, List.length_singleton]

/-- A pushed node holds nothing new. -/
theorem WF.pushChild (h : WF nodes) (hcur : cur < nodes.length) : WF (pushChild nodes cur key) where
  root := by
    rw [length_pushChild]
    exact Nat.succ_pos _
  edges := by
    rw [child_pushChild hcur, length_pushChild]
    exact h.edges.addEdge hcur

theorem holds_pushChild (h : WF nodes) (hcur : cur < nodes.length)
    (hnew : child nodes cur key = none) :
    Holds (PathTrie.pushChild nodes cur key) 0 comps ↔ Holds nodes 0 comps := by
  unfold Holds
  simp only [child_pushChild hcur, terminal_pushChild hcur]
  refine exists_congr fun j => ?_
  by_cases hj : j = nodes.length
  · subst hj
    rw [terminal_of_le (le_refl _)]
    simp
  · rw [Trie.walk_addEdge_iff h.edges hnew h.root hj]

/-- **The loop of `insert`** leads to a node for the components, and the trie holds what it held. -/
theorem insertLoop_spec (h : WF nodes) (hcur : Trie.walk (child nodes) 0 done = some cur)
    (comps : List Bytes) :
    WF (insertLoop nodes cur comps).1 ∧
      Trie.walk (child (insertLoop nodes cur comps).1) 0 (done ++ comps) =
        some (insertLoop nodes cur comps).2 ∧
      ∀ p, Holds (insertLoop nodes cur comps).1 0 p ↔ Holds nodes 0 p := by
  induction comps generalizing nodes cur done with
  | nil =>
    rw [insertLoop, List.append_nil]
    exact ⟨h, hcur, fun p => Iff.rfl⟩
  | cons key comps ih =>
    rw [insertLoop, List.append_cons]
    cases hchild : child nodes cur key with
    | some next =>
      -- the path goes along an edge that is there
      refine ih h ?_
      rw [Trie.walk_concat, hcur, Option.bind_some, hchild]
    | none =>
      -- a new node, whose index is the number of the nodes so far
      have hlt : cur < nodes.length := h.edges.walk_lt h.root hcur
      have hwalk : Trie.walk (child (pushChild nodes cur key)) 0 (done ++ [key]) =
          some nodes.length := by
        rw [child_pushChild hlt, Trie.walk_concat,
          (Trie.walk_addEdge_iff h.edges hchild h.root hlt.ne).mpr hcur, Option.bind_some,
          Trie.addEdge_self]
      obtain ⟨hwf, hend, hholds⟩ := ih (h.pushChild hlt) hwalk
      exact ⟨hwf, hend, fun p => (hholds p).trans (holds_pushChild h hlt hchild)⟩

theorem child_markTerminal : child (markTerminal nodes cur) = child nodes := by
  funext i k
  rw [child, child, markTerminal, List.getElem?_modify]
  by_cases hi : cur = i <;> cases nodes[i]? <;> simp [hi]

theorem terminal_markTerminal (hcur : cur < nodes.length) :
    terminal (markTerminal nodes cur) i = true ↔ i = cur ∨ terminal nodes i = true := by
  rw [terminal, terminal, markTerminal, List.getElem?_modify]
  by_cases hi : cur = i
  · subst hi
    rw [List.getElem?_eq_getElem hcur]
    simp
  · have hne : ¬ i = cur := fun h => hi h.symm
    cases nodes[i]? <;> simp [hi, hne]

/-- **An inserted path** is held besides the others. -/
theorem insert_spec {t : PathTrie} (h : WF t.nodes) (path : Path) :
    WF (t.insert path).nodes ∧ ∀ p, Holds (t.insert path).nodes 0 p ↔
      p = osComponents path ∨ Holds t.nodes 0 p := by
  have hstart : Trie.walk (child t.nodes) 0 [] = some 0 := rfl
  obtain ⟨hwf, hend, hholds⟩ := insertLoop_spec h hstart (osComponents path)
  rw [List.nil_append] at hend
  have hlt := hwf.edges.walk_lt hwf.root hend
  have hchild := @child_markTerminal (insertLoop t.nodes 0 (osComponents path)).1
    (insertLoop t.nodes 0 (osComponents path)).2
  refine ⟨⟨?_, ?_⟩, fun p => ?_⟩
  · rw [insert]
    dsimp only
    rw [markTerminal, List.length_modify]
    exact hwf.root
  · rw [insert]
    dsimp only
    rw [hchild, markTerminal, List.length_modify]
    exact hwf.edges
  · rw [← hholds p, insert]
    unfold Holds
    dsimp only
    rw [hchild]
    simp only [terminal_markTerminal hlt]
    constructor
    · rintro ⟨j, hj, rfl | hterminal⟩
      · exact Or.inl (hwf.edges.walk_inj hj hend)
      · exact Or.inr ⟨j, hj, hterminal⟩
    · rintro (rfl | ⟨j, hj, hterminal⟩)
      · exact ⟨_, hend, Or.inl rfl⟩
      · exact ⟨j, hj, Or.inr hterminal⟩

theorem wf_withCapacity : WF withCapacity.nodes where
  root := Nat.zero_lt_one
  edges := by
    have hnone : ∀ i k, child withCapacity.nodes i k = none := by
      intro i k
      cases i <;> rfl
    refine ⟨?_, ?_⟩
    · intro i k j h
      rw [hnone] at h
      cases h
    · intro i k j i' k' h
      rw [hnone] at h
      cases h

theorem not_holds_withCapacity : ¬ Holds withCapacity.nodes 0 comps := by
  rintro ⟨j, hj, hterminal⟩
  cases j <;> cases hterminal

theorem foldl_insert_spec (paths : List Path) {t : PathTrie} (h : WF t.nodes) :
    WF (paths.foldl insert t).nodes ∧ ∀ p, Holds (paths.foldl insert t).nodes 0 p ↔
      (∃ path ∈ paths, p = osComponents path) ∨ Holds t.nodes 0 p := by
  induction paths generalizing t with
  | nil => exact ⟨h, fun p => by simp⟩
  | cons path paths ih =>
    obtain ⟨hwf, hinsert⟩ := insert_spec h path
    obtain ⟨hwf', hholds⟩ := ih hwf
    refine ⟨hwf', fun p => (hholds p).trans ?_⟩
    rw [hinsert]
    simp only [List.mem_cons, exists_eq_or_imp]
    exact or_left_comm.trans or_assoc.symm

end Insert

/-! ### Finalizing -/

section Finalize

variable {nodes : List TrieNode} {i j : Nat} {comps : List Bytes}

theorem child_finalizeNode : child (finalizeNode nodes i) = child nodes := by
  funext j k
  rw [child, child, finalizeNode, List.getElem?_modify]
  by_cases hi : i = j <;> cases nodes[j]? <;> simp [hi]

theorem terminal_finalizeNode : terminal (finalizeNode nodes i) = terminal nodes := by
  funext j
  rw [terminal, terminal, finalizeNode, List.getElem?_modify]
  by_cases hi : i = j <;> cases nodes[j]? <;> simp [hi]

theorem hasTerminal_finalizeNode_of_ne (hi : i ≠ j) :
    hasTerminal (finalizeNode nodes i) j = hasTerminal nodes j := by
  rw [hasTerminal, hasTerminal, finalizeNode, List.getElem?_modify]
  cases nodes[j]? <;> simp [hi]

/-- A node has a terminal one at or below it if it is one or if a child has. -/
theorem hasTerminal_finalizeNode (hi : i < nodes.length) :
    hasTerminal (finalizeNode nodes i) i = true ↔
      terminal nodes i = true ∨ ∃ k j, child nodes i k = some j ∧ hasTerminal nodes j = true := by
  have hnode : nodes[i]? = some nodes[i] := List.getElem?_eq_getElem hi
  rw [hasTerminal, finalizeNode, List.getElem?_modify, hnode]
  simp only [Option.map_eq_map, if_true, Option.map_some, Option.getD_some, Bool.or_eq_true,
    List.any_eq_true]
  refine or_congr ?_ ⟨?_, ?_⟩
  · rw [terminal, hnode, Option.map_some, Option.getD_some]
  · rintro ⟨⟨k, j⟩, hmem, hj⟩
    refine ⟨k, j, ?_, hj⟩
    rw [child, hnode, Option.bind_some]
    exact Table.mem_toList.mp hmem
  · rintro ⟨k, j, hchild, hj⟩
    rw [child, hnode, Option.bind_some] at hchild
    exact ⟨(k, j), Table.mem_toList.mpr hchild, hj⟩

/-- Some path ends at or below the node. -/
theorem exists_holds_iff : (∃ comps, Holds nodes i comps) ↔
    terminal nodes i = true ∨ ∃ k j, child nodes i k = some j ∧ ∃ comps, Holds nodes j comps := by
  constructor
  · rintro ⟨comps, m, hm, hterminal⟩
    cases comps with
    | nil =>
      cases hm
      exact Or.inl hterminal
    | cons k comps =>
      obtain ⟨j, hj, hrest⟩ := Option.bind_eq_some_iff.mp hm
      exact Or.inr ⟨k, j, hj, comps, m, hrest, hterminal⟩
  · rintro (hterminal | ⟨k, j, hj, comps, m, hm, hterminal⟩)
    · exact ⟨[], i, rfl, hterminal⟩
    · exact ⟨k :: comps, m, by rw [Trie.walk_cons, hj, Option.bind_some, hm], hterminal⟩

/-- The flags from an index on are right. -/
def FlagsFrom (nodes : List TrieNode) (start : Nat) : Prop :=
  ∀ i, start ≤ i → i < nodes.length → (hasTerminal nodes i = true ↔ ∃ comps, Holds nodes i comps)

/-- What a round changes is the flag of its node only. -/
theorem holds_finalizeNode : Holds (finalizeNode nodes i) j comps ↔ Holds nodes j comps := by
  unfold Holds
  rw [child_finalizeNode, terminal_finalizeNode]

/-- A round sets the flag of its node right, since the children have larger indices. -/
theorem FlagsFrom.finalizeNode (h : FlagsFrom nodes (i + 1)) (hwf : WF nodes) :
    FlagsFrom (finalizeNode nodes i) i := by
  intro j hle hlt
  rw [PathTrie.finalizeNode, List.length_modify] at hlt
  simp only [holds_finalizeNode]
  rcases Nat.eq_or_lt_of_le hle with rfl | hgt
  · -- the flags of the children were set in earlier rounds
    rw [hasTerminal_finalizeNode hlt, exists_holds_iff]
    refine or_congr_right (exists_congr fun k => exists_congr fun m => ?_)
    refine and_congr_right fun hchild => h m ?_ (hwf.edges.forward hchild).2
    exact (hwf.edges.forward hchild).1
  · rw [hasTerminal_finalizeNode_of_ne hgt.ne]
    exact h j hgt hlt

theorem WF.finalizeNode (h : WF nodes) : WF (finalizeNode nodes i) where
  root := by
    rw [PathTrie.finalizeNode, List.length_modify]
    exact h.root
  edges := by
    rw [child_finalizeNode, PathTrie.finalizeNode, List.length_modify]
    exact h.edges

/-- The rounds from the last index to the first. -/
theorem foldl_finalizeNode (n : Nat) (hflags : FlagsFrom nodes n) (hwf : WF nodes) :
    let result := (List.range n).reverse.foldl finalizeNode nodes
    FlagsFrom result 0 ∧ WF result ∧ ∀ i comps, Holds result i comps ↔ Holds nodes i comps := by
  induction n generalizing nodes with
  | zero => exact ⟨hflags, hwf, fun _ _ => Iff.rfl⟩
  | succ n ih =>
    rw [List.range_succ, List.reverse_concat, List.foldl_cons]
    obtain ⟨hflags', hwf', hholds⟩ := ih (hflags.finalizeNode hwf) hwf.finalizeNode
    exact ⟨hflags', hwf', fun i comps => (hholds i comps).trans holds_finalizeNode⟩

/-- **A finalized trie**: its flags are right, and it holds what it held. -/
theorem finalize_spec {t : PathTrie} (h : WF t.nodes) : FlagsFrom t.finalize.nodes 0 ∧
    WF t.finalize.nodes ∧ ∀ i comps, Holds t.finalize.nodes i comps ↔ Holds t.nodes i comps :=
  foldl_finalizeNode t.nodes.length (fun _ hle hlt => absurd hlt (not_lt.mpr hle)) h

end Finalize

/-! ### Asking a trie -/

section Query

variable {nodes : List TrieNode} {i : Nat} {comps : List Bytes}

theorem holds_nil : Holds nodes i [] ↔ terminal nodes i = true := by
  constructor
  · rintro ⟨j, hj, hterminal⟩
    cases hj
    exact hterminal
  · exact fun h => ⟨i, rfl, h⟩

theorem holds_cons {k : Bytes} : Holds nodes i (k :: comps) ↔
    ∃ j, child nodes i k = some j ∧ Holds nodes j comps := by
  constructor
  · rintro ⟨m, hm, hterminal⟩
    obtain ⟨j, hj, hrest⟩ := Option.bind_eq_some_iff.mp hm
    exact ⟨j, hj, m, hrest, hterminal⟩
  · rintro ⟨j, hj, m, hm, hterminal⟩
    exact ⟨m, by rw [Trie.walk_cons, hj, Option.bind_some, hm], hterminal⟩

/-- Below a node at which no path ends, a held path that goes with the components begins with the
first of them. `R` is how they go together. -/
theorem exists_holds_cons {comp : Bytes} {R : List Bytes → List Bytes → Prop}
    (hR : ∀ k p, R (k :: p) (comp :: comps) ↔ k = comp ∧ R p comps)
    (hterminal : ¬ terminal nodes i = true) :
    (∃ p, R p (comp :: comps) ∧ Holds nodes i p) ↔
      ∃ j, child nodes i comp = some j ∧ ∃ p, R p comps ∧ Holds nodes j p := by
  constructor
  · rintro ⟨p, hp, hholds⟩
    cases p with
    | nil => exact absurd (holds_nil.mp hholds) hterminal
    | cons k p =>
      obtain ⟨rfl, hrest⟩ := (hR k p).mp hp
      obtain ⟨j, hj, hholds⟩ := holds_cons.mp hholds
      exact ⟨j, hj, p, hrest, hholds⟩
  · rintro ⟨j, hj, p, hp, hholds⟩
    exact ⟨comp :: p, (hR comp p).mpr ⟨rfl, hp⟩, holds_cons.mpr ⟨j, hj, hholds⟩⟩

theorem prefixLoop_iff : prefixLoop nodes i comps = true ↔ ∃ p, p <+: comps ∧ Holds nodes i p := by
  induction comps generalizing i with
  | nil =>
    rw [prefixLoop, ← holds_nil]
    constructor
    · exact fun h => ⟨[], List.nil_prefix, h⟩
    · rintro ⟨p, hle, hp⟩
      rwa [List.prefix_nil.mp hle] at hp
  | cons comp comps ih =>
    rw [prefixLoop]
    split
    · rename_i hterminal
      exact iff_of_true rfl ⟨[], List.nil_prefix, holds_nil.mpr hterminal⟩
    · rename_i hterminal
      rw [exists_holds_cons (R := fun p q => p <+: q) (fun k p => List.cons_prefix_cons) hterminal]
      cases child nodes i comp with
      | none => simp
      | some next => simpa using ih

/-- A path and one that is held, of which one is above the other. -/
theorem includeLoop_iff (hflags : FlagsFrom nodes 0) (hwf : WF nodes) (hi : i < nodes.length) :
    includeLoop nodes i comps = true ↔ ∃ p, (p <+: comps ∨ comps <+: p) ∧ Holds nodes i p := by
  induction comps generalizing i with
  | nil =>
    rw [includeLoop]
    have hall : (∃ p : List Bytes, (p <+: [] ∨ [] <+: p) ∧ Holds nodes i p) ↔
        ∃ p, Holds nodes i p :=
      exists_congr fun p => and_iff_right (Or.inr List.nil_prefix)
    rw [hall]
    split
    · rename_i hterminal
      exact iff_of_true rfl ⟨[], holds_nil.mpr hterminal⟩
    · -- the components are used up: what is held below the node counts
      exact hflags i (Nat.zero_le i) hi
  | cons comp comps ih =>
    rw [includeLoop]
    split
    · rename_i hterminal
      exact iff_of_true rfl ⟨[], Or.inl List.nil_prefix, holds_nil.mpr hterminal⟩
    · rename_i hterminal
      have hcons : ∀ k p, (k :: p <+: comp :: comps ∨ comp :: comps <+: k :: p) ↔
          k = comp ∧ (p <+: comps ∨ comps <+: p) := by
        intro k p
        rw [List.cons_prefix_cons, List.cons_prefix_cons, and_or_left, @eq_comm _ comp k]
      rw [exists_holds_cons (R := fun p q => p <+: q ∨ q <+: p) hcons hterminal]
      cases hchild : child nodes i comp with
      | none => simp
      | some next => simpa using ih (hwf.edges.forward hchild).2

end Query

/-! ### A trie of paths -/

section OfPaths

variable (paths : List Path)

theorem ofPaths_spec : FlagsFrom (ofPaths paths).nodes 0 ∧ WF (ofPaths paths).nodes ∧
    ∀ p, Holds (ofPaths paths).nodes 0 p ↔ ∃ path ∈ paths, p = osComponents path := by
  obtain ⟨hwf, hholds⟩ := foldl_insert_spec paths wf_withCapacity
  obtain ⟨hflags, hwf', hholds'⟩ := finalize_spec hwf
  refine ⟨hflags, hwf', fun p => ?_⟩
  rw [ofPaths, hholds' 0 p, hholds p]
  exact or_iff_left not_holds_withCapacity

/-- A trie holds the paths that were inserted. -/
theorem holds_ofPaths {p : List Bytes} :
    Holds (ofPaths paths).nodes 0 p ↔ ∃ path ∈ paths, p = osComponents path :=
  (ofPaths_spec paths).2.2 p

theorem containsPrefixOf_ofPaths {path : Path} : (ofPaths paths).containsPrefixOf path = true ↔
    ∃ p ∈ paths, osComponents p <+: osComponents path := by
  rw [containsPrefixOf, prefixLoop_iff]
  simp only [holds_ofPaths]
  constructor
  · rintro ⟨_, hle, p, hp, rfl⟩
    exact ⟨p, hp, hle⟩
  · rintro ⟨p, hp, hle⟩
    exact ⟨_, hle, p, hp, rfl⟩

theorem matchesIncludeSemantics_ofPaths {path : Path} :
    (ofPaths paths).matchesIncludeSemantics path = true ↔
      ∃ p ∈ paths, osComponents p <+: osComponents path ∨ osComponents path <+: osComponents p := by
  obtain ⟨hflags, hwf, -⟩ := ofPaths_spec paths
  rw [matchesIncludeSemantics, includeLoop_iff hflags hwf hwf.root]
  simp only [holds_ofPaths]
  constructor
  · rintro ⟨_, hle, p, hp, rfl⟩
    exact ⟨p, hp, hle⟩
  · rintro ⟨p, hp, hle⟩
    exact ⟨_, hle, p, hp, rfl⟩

end OfPaths

end PathTrie

/-! ## The filter -/

/-- `component_has_glob_meta`. -/
def componentHasGlobMeta (os : Bytes) : Bool :=
  os = [starByte, starByte] || os.any fun c => c = starByte ∨ c = questionByte

/-- `GlobRule::has_meta`. -/
def hasMeta (pattern : Path) : Bool := (osComponents pattern).any componentHasGlobMeta

/-- `PathFilter`. -/
structure PathFilter where
  includeTrie : Option PathTrie
  excludeTrie : Option PathTrie
  excludeGlobs : List GlobRule

namespace PathFilter

/-- `PathFilter::new`. There is no exclude trie if there are no literal excludes. -/
def new (includes excludes : Option (List Path)) : PathFilter where
  includeTrie := includes.map PathTrie.ofPaths
  excludeTrie := excludes.bind fun paths =>
    let literals := paths.filter fun p => !hasMeta p
    if literals.isEmpty then none else some (.ofPaths literals)
  excludeGlobs := (excludes.map fun paths => (paths.filter hasMeta).map GlobRule.new).getD []

/-- `PathFilter::allow`. -/
def allow (f : PathFilter) (path : Path) : Bool :=
  if f.excludeTrie.any fun trie => trie.containsPrefixOf path then false
  else if f.excludeGlobs.any fun g => g.matchesForExclude path then false
  else
    match f.includeTrie with
    | none => true
    | some inc => inc.matchesIncludeSemantics path

end PathFilter

/-- Component-wise prefixes. -/
def PathPrefix (p path : Path) : Prop := osComponents p <+: osComponents path

/-- What an exclude stands for: without metacharacters the paths below it, else the paths below one
that the pattern matches. -/
inductive Denies (p path : Path) : Prop
  | literal (hmeta : hasMeta p = false) (hle : PathPrefix p path)
  | glob (hmeta : hasMeta p = true) (q : Path) (hle : q <+: path)
      (hmatch : Splits (GlobRule.new p).pieces (osComponents q))

/-- Some exclude denies the path. -/
def Denied (excludes : Option (List Path)) (path : Path) : Prop :=
  ∃ p ∈ excludes.getD [], Denies p path

/-- If includes are given, one of them is above the path or below it. -/
def Included (includes : Option (List Path)) (path : Path) : Prop :=
  ∀ paths, includes = some paths → ∃ p ∈ paths, PathPrefix p path ∨ PathPrefix path p

/-- What a traversal sees that starts with `top` and goes down from the allowed paths only. -/
inductive Sees (f : PathFilter) (top : Path) : Path → Prop
  | top (hallow : f.allow top = true) : Sees f top top
  | down {path : Path} (c : Component) (hsees : Sees f top path)
      (hallow : f.allow (path ++ [c]) = true) : Sees f top (path ++ [c])

section Allow

variable {includes excludes : Option (List Path)} {p path path' : Path}

theorem PathPrefix.of_le (h : path <+: path') : PathPrefix path path' := h.map _

theorem PathPrefix.trans {q : Path} (h : PathPrefix p path) (h' : PathPrefix path q) :
    PathPrefix p q :=
  List.IsPrefix.trans h h'

theorem matchesForExclude_new : (GlobRule.new p).matchesForExclude path = true ↔
    ∃ q, q <+: path ∧ Splits (GlobRule.new p).pieces (osComponents q) :=
  (GlobRule.matchesForExclude_iff p path).trans (GlobRule.splitsPrefix_osComponents path)

theorem excludeTrie_new : ((PathFilter.new includes excludes).excludeTrie.any fun trie =>
    trie.containsPrefixOf path) = true ↔
      ∃ p ∈ excludes.getD [], hasMeta p = false ∧ PathPrefix p path := by
  cases excludes with
  | none => simp [PathFilter.new]
  | some paths =>
    have hiff : (∃ p ∈ paths, hasMeta p = false ∧ PathPrefix p path) ↔
        ∃ p ∈ paths.filter fun p => !hasMeta p, PathPrefix p path := by
      simp only [List.mem_filter, Bool.not_eq_true', and_assoc]
    rw [Option.getD_some, hiff, PathFilter.new, Option.bind_some]
    dsimp only
    cases hliterals : paths.filter fun p => !hasMeta p with
    | nil => simp
    | cons q literals =>
      rw [List.isEmpty_cons, if_neg Bool.false_ne_true, Option.any_some,
        PathTrie.containsPrefixOf_ofPaths]
      exact Iff.rfl

theorem excludeGlobs_new : ((PathFilter.new includes excludes).excludeGlobs.any fun g =>
    g.matchesForExclude path) = true ↔ ∃ p ∈ excludes.getD [], hasMeta p = true ∧
      ∃ q, q <+: path ∧ Splits (GlobRule.new p).pieces (osComponents q) := by
  cases excludes with
  | none => simp [PathFilter.new]
  | some paths =>
    simp only [PathFilter.new, Option.map_some, Option.getD_some, List.any_map, List.any_eq_true,
      List.mem_filter, Function.comp_apply, matchesForExclude_new, and_assoc]

theorem denied_iff : Denied excludes path ↔
    (∃ p ∈ excludes.getD [], hasMeta p = false ∧ PathPrefix p path) ∨
    ∃ p ∈ excludes.getD [], hasMeta p = true ∧
      ∃ q, q <+: path ∧ Splits (GlobRule.new p).pieces (osComponents q) := by
  constructor
  · rintro ⟨p, hp, ⟨hmeta, hle⟩ | ⟨hmeta, q, hle, hmatch⟩⟩
    · exact Or.inl ⟨p, hp, hmeta, hle⟩
    · exact Or.inr ⟨p, hp, hmeta, q, hle, hmatch⟩
  · rintro (⟨p, hp, hmeta, hle⟩ | ⟨p, hp, hmeta, q, hle, hmatch⟩)
    · exact ⟨p, hp, .literal hmeta hle⟩
    · exact ⟨p, hp, .glob hmeta q hle hmatch⟩

/-- **What the filter allows.** -/
theorem allow_iff : (PathFilter.new includes excludes).allow path = true ↔
    ¬ Denied excludes path ∧ Included includes path := by
  rw [denied_iff, not_or, ← @excludeTrie_new includes, ← @excludeGlobs_new includes, PathFilter.allow]
  split
  · rename_i htrie
    exact iff_of_false Bool.false_ne_true fun h => h.1.1 htrie
  · rename_i htrie
    split
    · rename_i hglobs
      exact iff_of_false Bool.false_ne_true fun h => h.1.2 hglobs
    · rename_i hglobs
      rw [and_iff_right ⟨htrie, hglobs⟩, Included, PathFilter.new]
      cases includes with
      | none => simp
      | some paths =>
        simp only [Option.map_some, Option.some.injEq, forall_eq',
          PathTrie.matchesIncludeSemantics_ofPaths]
        exact Iff.rfl

/-- What is below a denied path is denied. -/
theorem Denied.mono (h : Denied excludes path) (hle : path <+: path') : Denied excludes path' := by
  obtain ⟨p, hp, hdenies⟩ := h
  refine ⟨p, hp, ?_⟩
  cases hdenies with
  | literal hmeta hp' => exact .literal hmeta (hp'.trans (.of_le hle))
  | glob hmeta q hq hmatch => exact .glob hmeta q (hq.trans hle) hmatch

/-- What is above an included path is included. -/
theorem Included.mono (h : Included includes path') (hle : path <+: path') :
    Included includes path := by
  intro paths hpaths
  obtain ⟨p, hp, hcases⟩ := h paths hpaths
  refine ⟨p, hp, ?_⟩
  rcases hcases with hbelow | habove
  · exact List.prefix_or_prefix_of_prefix hbelow (PathPrefix.of_le hle)
  · exact Or.inr ((PathPrefix.of_le hle).trans habove)

/-- **With a path the filter allows the paths above it.** -/
theorem allow_of_le (hle : path <+: path') (h : (PathFilter.new includes excludes).allow path' =
    true) :
    (PathFilter.new includes excludes).allow path = true := by
  obtain ⟨hdenied, hincluded⟩ := allow_iff.mp h
  exact allow_iff.mpr ⟨fun hd => hdenied (hd.mono hle), hincluded.mono hle⟩

/-- A traversal sees the allowed paths below its start. The induction goes down from there. -/
theorem sees_of_allow {top : Path} (hle : top <+: path)
    (h : (PathFilter.new includes excludes).allow path = true) :
    Sees (PathFilter.new includes excludes) top path := by
  obtain ⟨rest, rfl⟩ := hle
  induction rest using List.reverseRecOn with
  | nil =>
    rw [List.append_nil] at h ⊢
    exact .top h
  | append_singleton rest c ih =>
    rw [← List.append_assoc] at h ⊢
    exact .down c (ih (allow_of_le (List.prefix_append _ [c]) h)) h

/-- The filter that the traversals go by. -/
def PathFilter.toPathFilter (includes excludes : Option (List Path)) : Mapache.PathFilter where
  allow := (PathFilter.new includes excludes).allow
  closed := allow_of_le

end Allow

/-- **The filter decides what it is for, and is closed under descent.** -/
theorem path_filter_exact (includes excludes : Option (List Path)) (path : Path) :
    ((PathFilter.new includes excludes).allow path = true ↔
      (∀ p ∈ excludes.getD [], hasMeta p = false → ¬ PathPrefix p path) ∧
      (∀ p ∈ excludes.getD [], hasMeta p = true →
        ∀ q, q <+: path → ¬ Splits (GlobRule.new p).pieces (osComponents q)) ∧
      Included includes path) ∧
    (Denied excludes path → ∀ path', path <+: path' →
      (PathFilter.new includes excludes).allow path' = false) ∧
    ((PathFilter.new includes excludes).allow path = true → ∀ path', path' <+: path →
      (PathFilter.new includes excludes).allow path' = true ∧
      Sees (PathFilter.new includes excludes) path' path) := by
  refine ⟨?_, fun hdenied path' hle => ?_, fun h path' hle => ⟨allow_of_le hle h, sees_of_allow hle h⟩⟩
  · rw [allow_iff, denied_iff, not_or, and_assoc]
    refine and_congr ?_ (and_congr_left' ?_)
    · simp only [not_exists, not_and]
    · simp only [not_exists, not_and]
  · refine Bool.eq_false_iff.mpr fun h => ?_
    exact (allow_iff.mp h).1 (hdenied.mono hle)

end Mapache.Filter
